import Mathlib.Data.List.Nodup
import Mathlib.Data.List.Perm.Subperm
import Mathlib.Logic.Function.Basic

/-!
Doubly linked lists in memory: heads with a `first` word, nodes with a `next` word and a
back pointer to the word that names them. `Family` ties such a memory to one list per head;
`Erased`, `Inserted` and `Replaced` say what an edit may do to the words.
-/

namespace TrieBenchmark.Hlist

open List Function

inductive Slot (H N : Type) where
  | first (h : H)
  | next (n : N)
  deriving DecidableEq, Repr

structure Word (N : Type) where
  ptr : Option N
  mark : Bool
  deriving DecidableEq, Repr

structure Links (H N : Type) where
  word : Slot H N → Word N
  pprev : N → Option (Slot H N)

variable {H N : Type}

namespace Links

def store [DecidableEq H] [DecidableEq N] (L : Links H N) (s : Slot H N) (w : Word N) :
    Links H N :=
  { L with word := update L.word s w }

def setPprev [DecidableEq N] (L : Links H N) (n : N) (s : Option (Slot H N)) : Links H N :=
  { L with pprev := update L.pprev n s }

def first (L : Links H N) (h : H) : Option N :=
  (L.word (.first h)).ptr

def next (L : Links H N) (n : N) : Option N :=
  (L.word (.next n)).ptr

def marked (L : Links H N) (n : N) : Bool :=
  (L.word (.next n)).mark

section

variable [DecidableEq H] [DecidableEq N] (L : Links H N)

@[simp] theorem store_word (s : Slot H N) (w : Word N) :
    (L.store s w).word = update L.word s w := rfl

@[simp] theorem store_pprev (s : Slot H N) (w : Word N) : (L.store s w).pprev = L.pprev := rfl

end

@[simp] theorem setPprev_word [DecidableEq N] (L : Links H N) (n : N) (s : Option (Slot H N)) :
    (L.setPprev n s).word = L.word := rfl

@[simp] theorem setPprev_pprev [DecidableEq N] (L : Links H N) (n : N) (s : Option (Slot H N)) :
    (L.setPprev n s).pprev = update L.pprev n s := rfl

def addHead [DecidableEq H] [DecidableEq N] (L : Links H N) (h : H) (n : N) : Links H N :=
  let first := L.first h
  let L₁ := (L.store (.next n) ⟨first, false⟩).setPprev n (some (.first h))
  let L₂ := match first with
    | some m => L₁.setPprev m (some (.next n))
    | none => L₁
  L₂.store (.first h) ⟨some n, false⟩

/-- Take `n` out of its chain; it keeps its two pointers. -/
def unlink [DecidableEq H] [DecidableEq N] (L : Links H N) (n : N) : Links H N :=
  let next := L.next n
  let pprev := L.pprev n
  let L₁ := match pprev with
    | some slot => L.store slot ⟨next, false⟩
    | none => L
  match next with
  | some m => L₁.setPprev m pprev
  | none => L₁

def walk (L : Links H N) : ℕ → Option N → List N
  | 0, _ => []
  | _ + 1, none => []
  | fuel + 1, some n => n :: L.walk fuel (L.next n)

def chain (L : Links H N) (fuel : ℕ) (h : H) : List N :=
  L.walk fuel (L.first h)

def alone [DecidableEq H] (L : Links H N) (h : H) : Links H N where
  word
    | .first k => if k = h then L.word (.first h) else ⟨none, false⟩
    | .next n => L.word (.next n)
  pprev := L.pprev

end Links

/-- `Seg L s xs`: starting from the word at `s`, the nodes of `xs` follow one another,
unmarked and with the right back pointers. -/
def Seg (L : Links H N) : Slot H N → List N → Prop
  | _, [] => True
  | s, x :: xs => L.word s = ⟨some x, false⟩ ∧ L.pprev x = some s ∧ Seg L (.next x) xs

def endSlot (s : Slot H N) : List N → Slot H N
  | [] => s
  | x :: xs => endSlot (.next x) xs

def Linked (L : Links H N) (h : H) (xs : List N) : Prop :=
  Seg L (.first h) xs ∧ L.word (endSlot (.first h) xs) = ⟨none, false⟩

/-- Every head's chain is the list `c` gives for it, and no node is in two places. -/
structure Family (L : Links H N) (c : H → List N) : Prop where
  linked : ∀ h, Linked L h (c h)
  nodup : ∀ h, (c h).Nodup
  disjoint : ∀ h h' n, n ∈ c h → n ∈ c h' → h = h'

structure Chain (L : Links H N) (h : H) (xs : List N) : Prop where
  linked : Linked L h xs
  nodup : xs.Nodup

theorem Family.toChain {L : Links H N} {c : H → List N} (hF : Family L c) (h : H) :
    Chain L h (c h) :=
  ⟨hF.linked h, hF.nodup h⟩

section Segments

variable {L L' : Links H N} {s : Slot H N} {xs ys : List N} {n : N}

theorem endSlot_append (s : Slot H N) (xs ys : List N) :
    endSlot s (xs ++ ys) = endSlot (endSlot s xs) ys := by
  induction xs generalizing s with
  | nil => rfl
  | cons x _ ih => exact ih (.next x)

theorem seg_append (s : Slot H N) (xs ys : List N) :
    Seg L s (xs ++ ys) ↔ Seg L s xs ∧ Seg L (endSlot s xs) ys := by
  induction xs generalizing s with
  | nil => simp [Seg, endSlot]
  | cons _ _ ih => simp [Seg, endSlot, ih, and_assoc]

theorem endSlot_mem (s : Slot H N) (xs : List N) :
    endSlot s xs = s ∨ ∃ x ∈ xs, endSlot s xs = .next x := by
  induction xs generalizing s with
  | nil => exact .inl rfl
  | cons x _ ih =>
    rcases ih (.next x) with h | ⟨y, hy, h⟩
    · exact .inr ⟨x, by simp, h⟩
    · exact .inr ⟨y, by simp [hy], h⟩

theorem next_ne_endSlot {h : H} (hn : n ∉ xs) : Slot.next n ≠ endSlot (.first h) xs := by
  intro heq
  rcases endSlot_mem (.first h) xs with he | ⟨x, hx, he⟩ <;> rw [he] at heq
  · cases heq
  · injection heq with heq
    exact hn (heq ▸ hx)

/-- A segment only depends on the words before its end and on its own back pointers. -/
theorem Seg.congr (hseg : Seg L s xs) (hnd : xs.Nodup) (hs : ∀ x ∈ xs, s ≠ .next x)
    (hword : ∀ t, (t = s ∨ ∃ x ∈ xs, t = .next x) → t ≠ endSlot s xs → L'.word t = L.word t)
    (hback : ∀ x ∈ xs, L'.pprev x = L.pprev x) : Seg L' s xs := by
  induction xs generalizing s with
  | nil => trivial
  | cons x xs ih =>
    obtain ⟨hw, hb, htail⟩ := hseg
    rw [nodup_cons] at hnd
    have hne : ∀ y ∈ xs, Slot.next (H := H) x ≠ .next y := by
      intro y hy hxy
      injection hxy with hxy
      exact hnd.1 (hxy ▸ hy)
    have hend : s ≠ endSlot (.next x) xs := by
      rcases endSlot_mem (.next x) xs with h | ⟨y, hy, h⟩
      · rw [h]
        exact hs x (by simp)
      · rw [h]
        exact hs y (by simp [hy])
    refine ⟨(hword s (.inl rfl) hend).trans hw, (hback x (by simp)).trans hb,
      ih htail hnd.2 hne ?_ fun y hy => hback y (by simp [hy])⟩
    rintro t (rfl | ⟨y, hy, rfl⟩) ht
    · exact hword _ (.inr ⟨x, by simp, rfl⟩) ht
    · exact hword _ (.inr ⟨y, by simp [hy], rfl⟩) ht

theorem Linked.congr {h : H} (hl : Linked L h xs) (hnd : xs.Nodup)
    (hhead : L'.word (.first h) = L.word (.first h))
    (hword : ∀ x ∈ xs, L'.word (.next x) = L.word (.next x))
    (hback : ∀ x ∈ xs, L'.pprev x = L.pprev x) : Linked L' h xs := by
  have hw : ∀ t, (t = .first h ∨ ∃ x ∈ xs, t = .next x) → L'.word t = L.word t := by
    rintro t (rfl | ⟨x, hx, rfl⟩)
    · exact hhead
    · exact hword x hx
  refine ⟨hl.1.congr hnd (by simp) (fun t ht _ => hw t ht) hback, ?_⟩
  rw [hw _ (endSlot_mem _ xs)]
  exact hl.2

end Segments

/-- `L'` is `L` with `old` cut out of the chain of `h` and `mid` put in its place. -/
structure Splice (L L' : Links H N) (c : H → List N) (h : H) (xs old mid ys : List N) :
    Prop where
  chain : c h = xs ++ old ++ ys
  fresh : ∀ m ∈ mid, ∀ h', m ∉ c h'
  nodup : mid.Nodup
  word : ∀ t, t ≠ endSlot (.first h) xs → (∀ m ∈ old, t ≠ .next m) →
    (∀ m ∈ mid, t ≠ .next m) → L'.word t = L.word t
  back : ∀ m, m ∉ old → m ∉ mid → ys.head? ≠ some m → L'.pprev m = L.pprev m
  join : Seg L' (endSlot (.first h) xs) (mid ++ ys.head?.toList)
  last : ys = [] → L'.word (endSlot (endSlot (.first h) xs) mid) = ⟨none, false⟩

namespace Splice

variable {L L' : Links H N} {c : H → List N} {h h' : H} {xs old mid ys : List N} {x : N}

theorem mem_of_stays (hS : Splice L L' c h xs old mid ys) (hx : x ∈ xs ∨ x ∈ ys) : x ∈ c h := by
  rw [hS.chain]
  simp only [mem_append]
  tauto

theorem not_mem_mid (hS : Splice L L' c h xs old mid ys) (hx : x ∈ c h') : x ∉ mid :=
  fun hm => hS.fresh x hm h' hx

theorem word_stays (hF : Family L c) (hS : Splice L L' c h xs old mid ys)
    (hx : x ∈ xs ∨ x ∈ ys) (hne : Slot.next x ≠ endSlot (.first h) xs) :
    L'.word (.next x) = L.word (.next x) := by
  have hnd : (xs ++ old ++ ys).Nodup := hS.chain ▸ hF.nodup h
  refine hS.word _ hne (fun m hm heq => ?_) fun m hm heq => ?_ <;> injection heq with heq <;>
    subst heq
  · grind
  · exact hS.not_mem_mid (hS.mem_of_stays hx) hm

theorem linked_self (hF : Family L c) (hS : Splice L L' c h xs old mid ys) :
    Linked L' h (xs ++ mid ++ ys) := by
  have hnd : (xs ++ old ++ ys).Nodup := hS.chain ▸ hF.nodup h
  obtain ⟨hseg, hlast⟩ := hS.chain ▸ hF.linked h
  obtain ⟨hsegxo, hsegy⟩ := (seg_append _ _ _).mp hseg
  have hbefore : Seg L' (.first h) xs := by
    refine ((seg_append _ _ _).mp hsegxo).1.congr (by grind) (by simp) ?_ fun x hx =>
      hS.back x (by grind) (hS.not_mem_mid (hS.mem_of_stays (.inl hx)))
        (by grind [mem_of_head?])
    rintro t (rfl | ⟨x, hx, rfl⟩) hne
    · exact hS.word _ hne (by simp) (by simp)
    · exact word_stays hF hS (.inl hx) hne
  rw [Linked, seg_append, seg_append]
  simp only [endSlot_append]
  cases ys with
  | nil => exact ⟨⟨⟨hbefore, by simpa using hS.join⟩, trivial⟩, hS.last rfl⟩
  | cons y ys =>
    obtain ⟨hsegm, hsegj⟩ := (seg_append _ mid [y]).mp hS.join
    have hkeep : ∀ z ∈ y :: ys, L'.word (.next z) = L.word (.next z) := fun z hz =>
      word_stays hF hS (.inr hz) (next_ne_endSlot (by grind))
    have hafter : Seg L' (.next y) ys := by
      refine hsegy.2.2.congr (by grind) (by grind) ?_ fun z hz =>
        hS.back z (by grind) (hS.not_mem_mid (hS.mem_of_stays (.inr (by simp [hz]))))
          (by grind)
      rintro t (rfl | ⟨z, hz, rfl⟩) -
      · exact hkeep y (by simp)
      · exact hkeep z (by simp [hz])
    have hend : L'.word (endSlot (.next y) ys) = L.word (endSlot (.next y) ys) := by
      rcases endSlot_mem (H := H) (.next y) ys with he | ⟨z, hz, he⟩ <;> rw [he]
      · exact hkeep y (by simp)
      · exact hkeep z (by simp [hz])
    refine ⟨⟨⟨hbefore, hsegm⟩, hsegj.1, hsegj.2.1, hafter⟩, ?_⟩
    rw [endSlot_append] at hlast
    exact hend.trans hlast

theorem linked_other (hF : Family L c) (hS : Splice L L' c h xs old mid ys) (hh : h' ≠ h) :
    Linked L' h' (c h') := by
  have hother : ∀ x ∈ c h', x ∉ c h := fun x hx hx' => hh (hF.disjoint _ _ x hx hx')
  refine (hF.linked h').congr (hF.nodup h') ?_ (fun x hx => ?_) fun x hx => ?_
  · refine hS.word _ (fun heq => ?_) (by simp) (by simp)
    rcases endSlot_mem (.first h) xs with he | ⟨z, hz, he⟩ <;> rw [he] at heq
    · injection heq with heq
      exact hh heq
    · cases heq
  · refine hS.word _ (next_ne_endSlot fun hx' => hother x hx (hS.mem_of_stays (.inl hx')))
      (fun m hm heq => ?_) fun m hm heq => ?_ <;> injection heq with heq <;> subst heq
    · exact hother x hx (by simp [hS.chain, hm])
    · exact hS.fresh x hm h' hx
  · exact hS.back x (fun hm => hother x hx (by simp [hS.chain, hm]))
      (fun hm => hS.fresh x hm h' hx) fun hy =>
      hother x hx (hS.mem_of_stays (.inr (mem_of_head? hy)))

theorem family [DecidableEq H] (hF : Family L c) (hS : Splice L L' c h xs old mid ys) :
    Family L' (update c h (xs ++ mid ++ ys)) := by
  have hnd : (xs ++ old ++ ys).Nodup := hS.chain ▸ hF.nodup h
  have hfresh := hS.fresh
  have hstay : ∀ {x}, x ∈ xs ∨ x ∈ ys → x ∈ c h := hS.mem_of_stays
  have hmid := hS.nodup
  refine ⟨fun h' => ?_, fun h' => ?_, fun h₁ h₂ n hn₁ hn₂ => ?_⟩
  · rcases eq_or_ne h' h with rfl | hh
    · simpa only [update_self] using hS.linked_self hF
    · simpa only [update_of_ne hh] using hS.linked_other hF hh
  · rcases eq_or_ne h' h with rfl | hh
    · simp only [update_self]
      grind
    · simpa only [update_of_ne hh] using hF.nodup h'
  · have hold : ∀ {h' n}, n ∈ update c h (xs ++ mid ++ ys) h' →
        n ∈ c h' ∨ h' = h ∧ n ∈ mid := by
      intro h' n hn
      rcases eq_or_ne h' h with rfl | hh
      · simp only [update_self, mem_append] at hn
        grind
      · exact .inl (by simpa only [update_of_ne hh] using hn)
    rcases hold hn₁ with hc₁ | ⟨he₁, hm₁⟩ <;> rcases hold hn₂ with hc₂ | ⟨he₂, hm₂⟩
    · exact hF.disjoint _ _ n hc₁ hc₂
    · exact absurd hc₁ (hfresh n hm₂ h₁)
    · exact absurd hc₂ (hfresh n hm₁ h₂)
    · rw [he₁, he₂]

end Splice

structure Erased (L L' : Links H N) (n : N) : Prop where
  slot : ∀ e, L.pprev n = some e → L'.word e = ⟨L.next n, false⟩
  node : L'.word (.next n) = ⟨L.next n, true⟩
  word : ∀ t, L.pprev n ≠ some t → t ≠ .next n → L'.word t = L.word t
  back : ∀ m, L.next n = some m → L'.pprev m = L.pprev n
  pprev : ∀ m, m ≠ n → L.next n ≠ some m → L'.pprev m = L.pprev m

structure Unlinked (L L' : Links H N) (n : N) : Prop where
  slot : ∀ e, L.pprev n = some e → L'.word e = ⟨L.next n, false⟩
  word : ∀ t, L.pprev n ≠ some t → t ≠ .next n → L'.word t = L.word t
  back : ∀ m, L.next n = some m → L'.pprev m = L.pprev n
  pprev : ∀ m, m ≠ n → L.next n ≠ some m → L'.pprev m = L.pprev m

theorem Erased.unlinked {L L' : Links H N} {n : N} (hE : Erased L L' n) : Unlinked L L' n :=
  ⟨hE.slot, hE.word, hE.back, hE.pprev⟩

structure Inserted (L L' : Links H N) (h : H) (n : N) : Prop where
  head : L'.word (.first h) = ⟨some n, false⟩
  node : L'.word (.next n) = ⟨L.first h, false⟩
  word : ∀ t, t ≠ .first h → t ≠ .next n → L'.word t = L.word t
  self : L'.pprev n = some (.first h)
  back : ∀ m, L.first h = some m → L'.pprev m = some (.next n)
  pprev : ∀ m, m ≠ n → L.first h ≠ some m → L'.pprev m = L.pprev m

theorem Inserted.marked [DecidableEq N] {L L' : Links H N} {h : H} {n : N} (hI : Inserted L L' h n)
    (m : N) : L'.marked m = if m = n then false else L.marked m := by
  unfold Links.marked
  by_cases hm : m = n
  · rw [if_pos hm, hm, hI.node]
  · rw [if_neg hm, hI.word _ (by simp) (by simpa using hm)]

structure Replaced (L L' : Links H N) (old new : N) : Prop where
  slot : ∀ e, L.pprev old = some e → L'.word e = ⟨some new, false⟩
  node : L'.word (.next old) = ⟨L.next old, true⟩
  fresh : L'.word (.next new) = ⟨L.next old, false⟩
  word : ∀ t, L.pprev old ≠ some t → t ≠ .next old → t ≠ .next new → L'.word t = L.word t
  self : L'.pprev new = L.pprev old
  back : ∀ m, L.next old = some m → L'.pprev m = some (.next new)
  pprev : ∀ m, m ≠ old → m ≠ new → L.next old ≠ some m → L'.pprev m = L.pprev m

inductive Swapped (L L' : Links H N) (old new : N) : H → H → Prop where
  | inPlace {h : H} : Replaced L L' old new → Swapped L L' old new h h
  | moved {L₁ : Links H N} {h h' : H} : Erased L L₁ old → Inserted L₁ L' h' new →
      Swapped L L' old new h h'

def Exchanged (L L' : Links H N) (olda newa oldb newb : N) : Prop :=
  (∃ L₁, Replaced L L₁ olda newa ∧ Replaced L₁ L' oldb newb) ∨
    ∃ L₁, Replaced L L₁ oldb newb ∧ Replaced L₁ L' olda newa

namespace Chain

variable {L L' : Links H N} {h : H} {xs ys zs : List N} {n m old new : N}

theorem split (hC : Chain L h (ys ++ n :: zs)) :
    L.pprev n = some (endSlot (.first h) ys) ∧
      L.word (endSlot (.first h) ys) = ⟨some n, false⟩ ∧ L.word (.next n) = ⟨zs.head?, false⟩ := by
  obtain ⟨hseg, hlast⟩ := hC.linked
  obtain ⟨-, hslot, hback, hafter⟩ := (seg_append _ ys (n :: zs)).mp hseg
  rw [endSlot_append] at hlast
  refine ⟨hback, hslot, ?_⟩
  cases zs with
  | nil => exact hlast
  | cons => exact hafter.1

theorem around (hC : Chain L h xs) (hn : n ∈ xs) :
    ∃ ys zs, xs = ys ++ [n] ++ zs ∧ L.pprev n = some (endSlot (.first h) ys) ∧
      L.word (endSlot (.first h) ys) = ⟨some n, false⟩ ∧ L.word (.next n) = ⟨zs.head?, false⟩ := by
  obtain ⟨ys, zs, rfl⟩ := append_of_mem hn
  exact ⟨ys, zs, by simp, hC.split⟩

theorem next_mem (hC : Chain L h xs) (hn : n ∈ xs) (hm : L.next n = some m) : m ∈ xs := by
  obtain ⟨ys, zs, rfl, -, -, hnode⟩ := hC.around hn
  rw [Links.next, hnode] at hm
  simp [mem_of_head? hm]

theorem next_of_pprev (hC : Chain L h xs) (hn : n ∈ xs) (he : L.pprev n = some (.next m)) :
    L.next m = some n := by
  obtain ⟨ys, zs, -, hpp, hslot, -⟩ := hC.around hn
  rw [he, Option.some.injEq] at hpp
  rw [Links.next, hpp, hslot]

theorem pprev_of_next (hC : Chain L h xs) (hn : n ∈ xs) (hm : L.next n = some m) :
    L.pprev m = some (.next n) := by
  obtain ⟨ys, zs, rfl⟩ := append_of_mem hn
  have hzs : zs.head? = some m := by rw [← hm, Links.next, hC.split.2.2]
  obtain ⟨ws, rfl⟩ : ∃ ws, zs = m :: ws := by
    cases zs with
    | nil => cases hzs
    | cons _ zs => exact ⟨zs, by simpa using hzs⟩
  have hC' : Chain L h ((ys ++ [n]) ++ m :: ws) := by simpa using hC
  rw [hC'.split.1, endSlot_append]
  rfl

theorem next_asymm (hC : Chain L h xs) (hn : n ∈ xs) (hm : L.next n = some m) :
    L.next m ≠ some n := by
  intro hn'
  obtain ⟨ys, zs, rfl⟩ := append_of_mem hn
  have hzs : zs.head? = some m := by rw [← hm, Links.next, hC.split.2.2]
  obtain ⟨ws, rfl⟩ : ∃ ws, zs = m :: ws := by
    cases zs with
    | nil => cases hzs
    | cons _ zs => exact ⟨zs, by simpa using hzs⟩
  have hws : L.next m = ws.head? := by
    have hC' : Chain L h ((ys ++ [n]) ++ m :: ws) := by simpa using hC
    rw [Links.next, hC'.split.2.2]
  have hmem : n ∈ ws := mem_of_head? (hws ▸ hn')
  have hnd : (n :: m :: ws).Nodup := (nodup_append.mp hC.nodup).2.1
  exact (nodup_cons.mp hnd).1 (by simp [hmem])

theorem edit_facts (hC : Chain L h xs) (hn : n ∈ xs) :
    ∃ e, L.pprev n = some e ∧ e ≠ .next n ∧ (∀ m, m ∉ xs → e ≠ .next m) ∧
      L.next n ≠ some n ∧ ∀ m, m ∉ xs → L.next n ≠ some m := by
  obtain ⟨ys, zs, rfl, hpp, -, hnode⟩ := hC.around hn
  have hnd := hC.nodup
  have hny : n ∉ ys := by grind
  have hnz : n ∉ zs := by grind
  have hnext : L.next n = zs.head? := by rw [Links.next, hnode]
  refine ⟨_, hpp, (next_ne_endSlot hny).symm, fun m hm => ?_, fun he => ?_, fun m hm he => ?_⟩
  · exact (next_ne_endSlot fun hy => hm (by simp [hy])).symm
  · exact hnz (mem_of_head? (hnext ▸ he))
  · exact hm (hC.next_mem hn he)

theorem pprev_ne_first (hC : Chain L h xs) (hn : n ∈ xs) {h' : H} {e : Slot H N}
    (he : L.pprev n = some e) (hh : h' ≠ h) : e ≠ .first h' := by
  obtain ⟨ys, zs, -, hpp, -⟩ := hC.around hn
  rw [he, Option.some.injEq] at hpp
  rintro rfl
  rcases endSlot_mem (.first h) ys with hy | ⟨y, -, hy⟩ <;> rw [hy] at hpp <;> cases hpp
  exact hh rfl

end Chain

namespace Family

variable {L L' : Links H N} {c : H → List N} {h h' : H} {n old new olda newa oldb newb : N}

theorem split (hF : Family L c) {xs ys : List N} (hc : c h = xs ++ n :: ys) :
    L.pprev n = some (endSlot (.first h) xs) ∧
      L.word (endSlot (.first h) xs) = ⟨some n, false⟩ ∧ L.word (.next n) = ⟨ys.head?, false⟩ :=
  Chain.split (hc ▸ hF.toChain h)

theorem around (hF : Family L c) (hn : n ∈ c h) :
    ∃ xs ys, c h = xs ++ [n] ++ ys ∧ L.pprev n = some (endSlot (.first h) xs) ∧
      L.word (endSlot (.first h) xs) = ⟨some n, false⟩ ∧ L.word (.next n) = ⟨ys.head?, false⟩ :=
  (hF.toChain h).around hn

theorem not_marked (hF : Family L c) (hn : n ∈ c h) : L.marked n = false := by
  obtain ⟨xs, ys, -, -, -, hnode⟩ := hF.around hn
  simp [Links.marked, hnode]

theorem next_mem (hF : Family L c) (hn : n ∈ c h) {m : N} (hm : L.next n = some m) :
    m ∈ c h :=
  (hF.toChain h).next_mem hn hm

theorem head_eq (hF : Family L c) (h : H) : L.word (.first h) = ⟨(c h).head?, false⟩ := by
  obtain ⟨hseg, hlast⟩ := hF.linked h
  cases hc : c h with
  | nil => simpa [hc, endSlot] using hlast
  | cons => simpa using (hc ▸ hseg).1

theorem first_mem (hF : Family L c) (hn : L.first h = some n) : n ∈ c h := by
  rw [Links.first, hF.head_eq] at hn
  exact mem_of_head? hn

theorem edit_facts (hF : Family L c) (hn : n ∈ c h) :
    ∃ e, L.pprev n = some e ∧ e ≠ .next n ∧ (∀ m, (∀ k, m ∉ c k) → e ≠ .next m) ∧
      L.next n ≠ some n ∧ ∀ m, (∀ k, m ∉ c k) → L.next n ≠ some m := by
  obtain ⟨e, hpp, hself, hfresh, hnext, hnextFresh⟩ := (hF.toChain h).edit_facts hn
  exact ⟨e, hpp, hself, fun m hm => hfresh m (hm h), hnext, fun m hm => hnextFresh m (hm h)⟩

section Edits

variable [DecidableEq H] [DecidableEq N]

theorem addHead_inserted (hF : Family L c) (hn : ∀ h', n ∉ c h') :
    Inserted L (L.addHead h n) h n := by
  have hfirst : L.first h ≠ some n := fun he => hn h (hF.first_mem he)
  unfold Links.addHead
  cases hf : L.first h with
  | none => constructor <;> simp +contextual [hf]
  | some m =>
    have hm : m ≠ n := fun hm => hfirst (hm ▸ hf)
    constructor <;> simp +contextual [hm.symm, hf, eq_comm]

theorem unlink_unlinked (hF : Family L c) (hn : n ∈ c h) : Unlinked L (L.unlink n) n := by
  obtain ⟨e, hpp, -⟩ := hF.edit_facts hn
  unfold Links.unlink
  cases hm : L.next n <;> constructor <;> simp +contextual [hm, hpp, eq_comm]

end Edits

theorem pprev_ne_first (hF : Family L c) (hn : n ∈ c h) {e : Slot H N}
    (he : L.pprev n = some e) (hh : h' ≠ h) : e ≠ .first h' :=
  (hF.toChain h).pprev_ne_first hn he hh

theorem next_of_pprev (hF : Family L c) (hn : n ∈ c h) {m : N}
    (he : L.pprev n = some (.next m)) : L.next m = some n :=
  (hF.toChain h).next_of_pprev hn he

theorem walk_eq {s : Slot H N} {xs : List N} {fuel : ℕ} (hseg : Seg L s xs)
    (hlast : (L.word (endSlot s xs)).ptr = none) (hfuel : xs.length ≤ fuel) :
    L.walk fuel (L.word s).ptr = xs := by
  induction xs generalizing s fuel with
  | nil =>
    simp only [endSlot] at hlast
    cases fuel <;> simp [hlast, Links.walk]
  | cons _ _ ih =>
    obtain ⟨hw, -, htail⟩ := hseg
    cases fuel with
    | zero => simp at hfuel
    | succ => simp [hw, Links.walk, Links.next, ih htail hlast (by simpa using hfuel)]

theorem chain_eq (hF : Family L c) {fuel : ℕ} (hfuel : (c h).length ≤ fuel) :
    L.chain fuel h = c h :=
  walk_eq (hF.linked h).1 (by rw [(hF.linked h).2]) hfuel

variable [DecidableEq H]

theorem prepublish [DecidableEq N] (hF : Family L c) (hn : ∀ k, n ∉ c k) {w : Word N}
    {p : Option (Slot H N)} : Family ((L.store (.next n) w).setPprev n p) c := by
  refine ⟨fun k => (hF.linked k).congr (hF.nodup k) (by simp) (fun x hx => ?_) fun x hx => ?_,
    hF.nodup, hF.disjoint⟩
  · have hne : x ≠ n := fun he => hn k (he ▸ hx)
    simp [hne]
  · have hne : x ≠ n := fun he => hn k (he ▸ hx)
    simp [hne]

omit [DecidableEq H] in
theorem unlinked_splice (hF : Family L c) {xs ys : List N} (hc : c h = xs ++ [n] ++ ys)
    (hE : Unlinked L L' n) : Splice L L' c h xs [n] [] ys := by
  obtain ⟨hpp, -, hnode⟩ := hF.split (n := n) (by simpa using hc)
  have hnext : L.next n = ys.head? := by rw [Links.next, hnode]
  refine ⟨hc, by simp, by simp, fun t ht hn' _ => hE.word t (by grind) (by grind),
    fun m hmn _ hm => hE.pprev m (by simpa using hmn) (by rwa [hnext]), ?_, fun hys => ?_⟩
  · cases ys with
    | nil => trivial
    | cons y =>
      refine ⟨?_, (hE.back y hnext).trans hpp, trivial⟩
      rw [hE.slot _ hpp, hnext]
      rfl
  · rw [endSlot, hE.slot _ hpp, hnext, hys]
    rfl

omit [DecidableEq H] in
theorem inserted_splice (hF : Family L c) (hn : ∀ h', n ∉ c h') (hI : Inserted L L' h n) :
    Splice L L' c h [] [] [n] (c h) := by
  have hfirst : L.first h = (c h).head? := by rw [Links.first, hF.head_eq]
  refine ⟨rfl, by simpa using hn, by simp, fun t ht _ hn' => hI.word t ht (by grind),
    fun m _ hm hne => hI.pprev m (by simpa using hm) (by rwa [hfirst]), ?_, fun hnil => ?_⟩
  · refine ⟨hI.head, hI.self, ?_⟩
    cases hc : c h with
    | nil => trivial
    | cons y =>
      have hy : L.first h = some y := by rw [hfirst, hc]; rfl
      exact ⟨by rw [hI.node, hy], hI.back y hy, trivial⟩
  · simp only [endSlot]
    rw [hI.node, hfirst, hnil]
    rfl

omit [DecidableEq H] in
theorem replaced_splice (hF : Family L c) {xs ys : List N} (hc : c h = xs ++ [old] ++ ys)
    (hnew : ∀ h', new ∉ c h') (hR : Replaced L L' old new) :
    Splice L L' c h xs [old] [new] ys := by
  obtain ⟨hpp, -, hnode⟩ := hF.split (n := old) (by simpa using hc)
  have hnext : L.next old = ys.head? := by rw [Links.next, hnode]
  refine ⟨hc, by simpa using hnew, by simp,
    fun t ht ho hn => hR.word t (by grind) (by grind) (by grind),
    fun m ho hm hne => hR.pprev m (by simpa using ho) (by simpa using hm) (by rwa [hnext]), ?_,
    fun hys => ?_⟩
  · refine ⟨hR.slot _ hpp, hR.self.trans hpp, ?_⟩
    cases ys with
    | nil => trivial
    | cons y => exact ⟨by rw [hR.fresh, hnext]; rfl, hR.back y hnext, trivial⟩
  · simp only [endSlot]
    rw [hR.fresh, hnext, hys]
    rfl

section Lists

variable [DecidableEq N]

theorem unlinked_erase (hF : Family L c) (hn : n ∈ c h) (hE : Unlinked L L' n) :
    Family L' fun k => (c k).erase n := by
  obtain ⟨xs, ys, hc, -⟩ := hF.around hn
  have hF' := (hF.unlinked_splice hc hE).family hF
  have hnd : (xs ++ [n] ++ ys).Nodup := hc ▸ hF.nodup h
  have hnx : n ∉ xs := by grind
  have he : (fun k => (c k).erase n) = update c h (xs ++ [] ++ ys) := by
    funext k
    by_cases hk : k = h
    · subst hk
      rw [update_self, hc, append_assoc, erase_append_right _ hnx]
      simp
    · rw [update_of_ne hk, erase_of_not_mem]
      intro hnk
      exact hk (hF.disjoint k h n hnk hn)
  rwa [he]

omit [DecidableEq N] in
theorem inserted_cons (hF : Family L c) (hn : ∀ h', n ∉ c h') (hI : Inserted L L' h n) :
    Family L' (update c h (n :: c h)) := by
  simpa using (hF.inserted_splice hn hI).family hF

theorem replaced_map (hF : Family L c) (hold : old ∈ c h) (hnew : ∀ h', new ∉ c h')
    (hR : Replaced L L' old new) : Family L' fun k => (c k).map (update id old new) := by
  obtain ⟨xs, ys, hc, -⟩ := hF.around hold
  have hF' := (hF.replaced_splice hc hnew hR).family hF
  have hnd : (xs ++ [old] ++ ys).Nodup := hc ▸ hF.nodup h
  have hmap : ∀ l : List N, old ∉ l → l.map (update id old new) = l := by
    intro l hl
    have hid : l.map (update id old new) = l.map id :=
      map_congr_left fun x hx => update_of_ne (ne_of_mem_of_not_mem hx hl) ..
    rw [hid, map_id]
  have he : (fun k => (c k).map (update id old new)) =
      update c h (xs ++ [new] ++ ys) := by
    funext k
    by_cases hk : k = h
    · subst hk
      rw [update_self, hc, map_append, map_append, hmap xs (by grind),
        hmap ys (by grind)]
      simp
    · rw [update_of_ne hk, hmap]
      intro hnk
      exact hk (hF.disjoint k h old hnk hold)
  rwa [he]

end Lists

theorem unlinked (hF : Family L c) (hn : n ∈ c h) (hE : Unlinked L L' n) :
    ∃ c', Family L' c' ∧ ∀ h' x, x ∈ c' h' ↔ x ∈ c h' ∧ x ≠ n := by
  obtain ⟨xs, ys, hc, -⟩ := hF.around hn
  have hnd : (xs ++ [n] ++ ys).Nodup := hc ▸ hF.nodup h
  refine ⟨_, (hF.unlinked_splice hc hE).family hF, fun h' x => ?_⟩
  rcases eq_or_ne h' h with rfl | hh
  · simp only [update_self, hc]
    grind
  · simp only [update_of_ne hh]
    exact ⟨fun hx => ⟨hx, fun hxn => hh (hF.disjoint _ _ n (hxn ▸ hx) hn)⟩, And.left⟩

theorem erased (hF : Family L c) (hn : n ∈ c h) (hE : Erased L L' n) :
    ∃ c', Family L' c' ∧ ∀ h' x, x ∈ c' h' ↔ x ∈ c h' ∧ x ≠ n :=
  hF.unlinked hn hE.unlinked

theorem inserted (hF : Family L c) (hn : ∀ h', n ∉ c h') (hI : Inserted L L' h n) :
    ∃ c', Family L' c' ∧ ∀ h' x, x ∈ c' h' ↔ x ∈ c h' ∨ h' = h ∧ x = n := by
  refine ⟨_, (hF.inserted_splice hn hI).family hF, fun h' x => ?_⟩
  rcases eq_or_ne h' h with rfl | hh
  · simp only [update_self]
    grind
  · simp [hh]

theorem replaced (hF : Family L c) (hold : old ∈ c h) (hnew : ∀ h', new ∉ c h')
    (hR : Replaced L L' old new) :
    ∃ c', Family L' c' ∧ ∀ h' x, x ∈ c' h' ↔ x ∈ c h' ∧ x ≠ old ∨ h' = h ∧ x = new := by
  obtain ⟨xs, ys, hc, -⟩ := hF.around hold
  have hnd : (xs ++ [old] ++ ys).Nodup := hc ▸ hF.nodup h
  refine ⟨_, (hF.replaced_splice hc hnew hR).family hF, fun h' x => ?_⟩
  have hold' : ∀ {x}, x ∈ c h ↔ x ∈ xs ∨ x = old ∨ x ∈ ys := by
    intro x
    simp [hc]
  rcases eq_or_ne h' h with rfl | hh
  · simp only [update_self, mem_append]
    grind
  · simp only [update_of_ne hh, hh, false_and, or_false]
    exact ⟨fun hx => ⟨hx, fun hxn => hh (hF.disjoint _ _ old (hxn ▸ hx) hold)⟩, And.left⟩

theorem swapped (hF : Family L c) (hold : old ∈ c h) (hnew : ∀ k, new ∉ c k)
    (hS : Swapped L L' old new h h') :
    ∃ c', Family L' c' ∧ ∀ k x, x ∈ c' k ↔ x ∈ c k ∧ x ≠ old ∨ k = h' ∧ x = new := by
  cases hS with
  | inPlace hR => exact hF.replaced hold hnew hR
  | moved hE hI =>
    obtain ⟨c₁, hF₁, hmem₁⟩ := hF.erased hold hE
    obtain ⟨c₂, hF₂, hmem₂⟩ := hF₁.inserted (fun k hk => hnew k ((hmem₁ k new).mp hk).1) hI
    exact ⟨c₂, hF₂, fun k x => by rw [hmem₂, hmem₁]⟩

theorem replaced_twice {L₁ : Links H N} (hF : Family L c) (hola : olda ∈ c h)
    (holb : oldb ∈ c h') (hnea : ∀ k, newa ∉ c k) (hneb : ∀ k, newb ∉ c k) (hold : olda ≠ oldb)
    (hnew : newa ≠ newb) (hR : Replaced L L₁ olda newa) (hR' : Replaced L₁ L' oldb newb) :
    ∃ c', Family L' c' ∧ ∀ k x, x ∈ c' k ↔
      x ∈ c k ∧ x ≠ olda ∧ x ≠ oldb ∨ k = h ∧ x = newa ∨ k = h' ∧ x = newb := by
  obtain ⟨c₁, hF₁, hmem₁⟩ := hF.replaced hola hnea hR
  have hneb₁ : ∀ k, newb ∉ c₁ k := by
    intro k hk
    rcases (hmem₁ k newb).mp hk with ⟨hk, -⟩ | ⟨-, hk⟩
    · exact hneb k hk
    · exact hnew hk.symm
  obtain ⟨c₂, hF₂, hmem₂⟩ := hF₁.replaced ((hmem₁ _ _).mpr (.inl ⟨holb, hold.symm⟩)) hneb₁ hR'
  refine ⟨c₂, hF₂, fun k x => ?_⟩
  rw [hmem₂, hmem₁]
  have hab : newa ≠ oldb := fun he => hnea h' (he ▸ holb)
  constructor
  · rintro (⟨⟨hx, hxa⟩ | ⟨hk, hx⟩, hxb⟩ | hx)
    · exact .inl ⟨hx, hxa, hxb⟩
    · exact .inr (.inl ⟨hk, hx⟩)
    · exact .inr (.inr hx)
  · rintro (⟨hx, hxa, hxb⟩ | ⟨hk, hx⟩ | hx)
    · exact .inl ⟨.inl ⟨hx, hxa⟩, hxb⟩
    · exact .inl ⟨.inr ⟨hk, hx⟩, hx ▸ hab⟩
    · exact .inr hx

theorem exchanged (hF : Family L c) (hola : olda ∈ c h) (holb : oldb ∈ c h')
    (hnea : ∀ k, newa ∉ c k) (hneb : ∀ k, newb ∉ c k) (hold : olda ≠ oldb) (hnew : newa ≠ newb)
    (hX : Exchanged L L' olda newa oldb newb) :
    ∃ c', Family L' c' ∧ ∀ k x, x ∈ c' k ↔
      x ∈ c k ∧ x ≠ olda ∧ x ≠ oldb ∨ k = h ∧ x = newa ∨ k = h' ∧ x = newb := by
  rcases hX with ⟨L₁, hR, hR'⟩ | ⟨L₁, hR, hR'⟩
  · exact hF.replaced_twice hola holb hnea hneb hold hnew hR hR'
  · obtain ⟨c', hF', hmem⟩ := hF.replaced_twice holb hola hneb hnea hold.symm hnew.symm hR hR'
    refine ⟨c', hF', fun k x => ?_⟩
    rw [hmem]
    tauto

end Family

structure Ready (L : Links H N) (old new : N) : Prop where
  slot : ∃ e, L.pprev old = some e ∧ e ≠ .next old ∧ e ≠ .next new
  self : L.next old ≠ some old
  next : L.next old ≠ some new
  ne : old ≠ new

namespace Chain

variable {L L' : Links H N} {h : H} {xs : List N} {old new : N}

theorem ready (hC : Chain L h xs) (hold : old ∈ xs) (hnew : new ∉ xs) : Ready L old new := by
  obtain ⟨e, hpp, hself, hfresh, hnext, hnextFresh⟩ := hC.edit_facts hold
  exact ⟨⟨e, hpp, hself, hfresh new hnew⟩, hnext, hnextFresh new hnew,
    fun he => hnew (he ▸ hold)⟩

variable [DecidableEq H]

theorem alone (hC : Chain L h xs) : Family (L.alone h) fun k => if k = h then xs else [] := by
  refine ⟨fun k => ?_, fun k => ?_, fun k k' n hn hn' => ?_⟩
  · by_cases hk : k = h
    · subst hk
      rw [if_pos rfl]
      exact hC.linked.congr hC.nodup (if_pos rfl) (fun _ _ => rfl) fun _ _ => rfl
    · rw [if_neg hk]
      exact ⟨trivial, if_neg hk⟩
  · split_ifs
    · exact hC.nodup
    · exact nodup_nil
  · have hmem : ∀ {k}, n ∈ (if k = h then xs else []) → k = h := by
      intro k hk
      by_contra hne
      rw [if_neg hne] at hk
      exact not_mem_nil hk
    rw [hmem hn, hmem hn']

theorem of_alone (hC : Chain (L.alone h) h xs) : Chain L h xs :=
  ⟨hC.linked.congr hC.nodup (if_pos rfl).symm (fun _ _ => rfl) fun _ _ => rfl, hC.nodup⟩

theorem replaced_map [DecidableEq N] (hC : Chain L h xs) (hold : old ∈ xs) (hnew : new ∉ xs)
    (hR : Replaced L L' old new) : Chain L' h (xs.map (update id old new)) := by
  have hin : Replaced (L.alone h) (L'.alone h) old new := by
    refine ⟨fun e he => ?_, hR.node, hR.fresh, fun t ht hto htn => ?_, hR.self, hR.back, hR.pprev⟩
    · cases e with
      | first k =>
        have hk : k = h := by
          by_contra hne
          exact hC.pprev_ne_first hold he hne rfl
        subst hk
        exact (if_pos rfl).trans (hR.slot _ he)
      | next => exact hR.slot _ he
    · cases t with
      | first k =>
        show (if k = h then L'.word (.first h) else _) = if k = h then L.word (.first h) else _
        by_cases hk : k = h
        · subst hk
          rw [if_pos rfl, if_pos rfl]
          exact hR.word _ ht hto htn
        · rw [if_neg hk, if_neg hk]
      | next => exact hR.word _ ht hto htn
  have hF := hC.alone.replaced_map (h := h) (by rwa [if_pos rfl]) (fun k hk => ?_) hin
  · have hC' := hF.toChain h
    rw [if_pos rfl] at hC'
    exact hC'.of_alone
  · split_ifs at hk
    · exact hnew hk
    · exact not_mem_nil hk

section Marks

variable [DecidableEq N] {olda newa oldb newb : N}

omit [DecidableEq H] in
theorem marked_replaced (hC : Chain L h xs) (hold : old ∈ xs) (hR : Replaced L L' old new) (n : N) :
    L'.marked n = if n = old then true else if n = new then false else L.marked n := by
  obtain ⟨ys, zs, -, hpp, hslot, -⟩ := hC.around hold
  unfold Links.marked
  by_cases hno : n = old
  · rw [if_pos hno, hno, hR.node]
  rw [if_neg hno]
  by_cases hnn : n = new
  · rw [if_pos hnn, hnn, hR.fresh]
  rw [if_neg hnn]
  by_cases hs : L.pprev old = some (.next n)
  · -- the word that names `old` has no mark, before and after
    rw [hpp, Option.some.injEq] at hs
    rw [hs] at hpp hslot
    rw [hR.slot _ hpp, hslot]
  · rw [hR.word _ hs (by simpa using hno) (by simpa using hnn)]

omit [DecidableEq H] in
theorem marked_erased (hC : Chain L h xs) (hold : old ∈ xs) (hE : Erased L L' old) (n : N) :
    L'.marked n = if n = old then true else L.marked n := by
  obtain ⟨ys, zs, -, hpp, hslot, -⟩ := hC.around hold
  unfold Links.marked
  by_cases hno : n = old
  · rw [if_pos hno, hno, hE.node]
  rw [if_neg hno]
  by_cases hs : L.pprev old = some (.next n)
  · rw [hpp, Option.some.injEq] at hs
    rw [hs] at hpp hslot
    rw [hE.slot _ hpp, hslot]
  · rw [hE.word _ hs (by simpa using hno)]

theorem replaced_twice {L₁ : Links H N} (hC : Chain L h xs) (hola : olda ∈ xs) (holb : oldb ∈ xs)
    (hnea : newa ∉ xs) (hneb : newb ∉ xs) (hold : olda ≠ oldb) (hnew : newa ≠ newb)
    (hR : Replaced L L₁ olda newa) (hR' : Replaced L₁ L' oldb newb) :
    Chain L' h (xs.map fun x => if x = olda then newa else if x = oldb then newb else x) ∧
      ∀ n, L'.marked n = if n = olda ∨ n = oldb then true
        else if n = newa ∨ n = newb then false else L.marked n := by
  have hab : newa ≠ oldb := fun he => hnea (he ▸ holb)
  have haa : olda ≠ newa := fun he => hnea (he ▸ hola)
  have hba : olda ≠ newb := fun he => hneb (he ▸ hola)
  have hbb : oldb ≠ newb := fun he => hneb (he ▸ holb)
  have hC₁ := hC.replaced_map hola hnea hR
  have holb₁ : oldb ∈ xs.map (update id olda newa) :=
    mem_map.mpr ⟨oldb, holb, update_of_ne hold.symm ..⟩
  have hneb₁ : newb ∉ xs.map (update id olda newa) := by
    intro hmem
    obtain ⟨x, hx, he⟩ := mem_map.mp hmem
    by_cases hxa : x = olda
    · rw [hxa, update_self] at he
      exact hnew he
    · rw [update_of_ne hxa] at he
      exact hneb (he ▸ hx)
  constructor
  · have hC₂ := hC₁.replaced_map holb₁ hneb₁ hR'
    rw [map_map] at hC₂
    convert hC₂ using 2
    funext x
    simp only [comp_apply, update_apply, id]
    grind
  · intro n
    rw [hC₁.marked_replaced holb₁ hR', hC.marked_replaced hola hR]
    grind

theorem exchanged (hC : Chain L h xs) (hola : olda ∈ xs) (holb : oldb ∈ xs) (hnea : newa ∉ xs)
    (hneb : newb ∉ xs) (hold : olda ≠ oldb) (hnew : newa ≠ newb)
    (hX : Exchanged L L' olda newa oldb newb) :
    Chain L' h (xs.map fun x => if x = olda then newa else if x = oldb then newb else x) ∧
      ∀ n, L'.marked n = if n = olda ∨ n = oldb then true
        else if n = newa ∨ n = newb then false else L.marked n := by
  rcases hX with ⟨L₁, hR, hR'⟩ | ⟨L₁, hR, hR'⟩
  · exact hC.replaced_twice hola holb hnea hneb hold hnew hR hR'
  · obtain ⟨hC', hmarks⟩ := hC.replaced_twice holb hola hneb hnea hold.symm hnew.symm hR hR'
    constructor
    · convert hC' using 2
      funext x
      grind
    · intro n
      rw [hmarks]
      grind

end Marks

end Chain

theorem Family.ready {L : Links H N} {c : H → List N} {h : H} {old new : N} (hF : Family L c)
    (hold : old ∈ c h) (hnew : ∀ k, new ∉ c k) : Ready L old new :=
  (hF.toChain h).ready hold (hnew h)

/-- Every live node is in the chain of its key, and no other node is in a chain. -/
def Filed (L : Links H N) (live : N → Prop) (key : N → H) : Prop :=
  ∃ c, Family L c ∧ ∀ h n, n ∈ c h ↔ live n ∧ key n = h

namespace Filed

variable {L : Links H N} {live live' : N → Prop} {key key' : N → H} {h : H} {n : N}

theorem congr (hL : Filed L live key) (hlive : ∀ x, live' x ↔ live x)
    (hkey : ∀ x, live x → key' x = key x) : Filed L live' key' := by
  obtain ⟨c, hF, hc⟩ := hL
  refine ⟨c, hF, fun h x => (hc h x).trans ?_⟩
  rw [hlive]
  exact and_congr_right fun hx => by rw [hkey x hx]

theorem first_isSome (hL : Filed L live key) :
    (L.first h).isSome = true ↔ ∃ n, live n ∧ key n = h := by
  obtain ⟨c, hF, hc⟩ := hL
  rw [Links.first, hF.head_eq, isSome_head?, ← not_iff_not, not_not,
    eq_nil_iff_forall_not_mem]
  simp only [hc, not_exists]

theorem length_le {L : Links H ℕ} {live : ℕ → Prop} {key : ℕ → H} {c : H → List ℕ} {k : ℕ}
    (hlt : ∀ n, live n → n < k) (hc : ∀ h n, n ∈ c h ↔ live n ∧ key n = h) (hF : Family L c)
    (h : H) : (c h).length ≤ k := by
  have hsub : c h ⊆ range k := fun n hn => mem_range.mpr (hlt n ((hc h n).mp hn).1)
  have hlen := ((hF.nodup h).subperm hsub).length_le
  rwa [length_range] at hlen

theorem chain {L : Links H ℕ} {live : ℕ → Prop} {key : ℕ → H} (hL : Filed L live key) {k : ℕ}
    (hlt : ∀ n, live n → n < k) (h : H) :
    (L.chain k h).Nodup ∧ ∀ n, n ∈ L.chain k h ↔ live n ∧ key n = h := by
  obtain ⟨c, hF, hc⟩ := hL
  rw [hF.chain_eq (length_le hlt hc hF h)]
  exact ⟨hF.nodup h, hc h⟩

section Chains

variable [DecidableEq H] {L : Links H ℕ} {live : ℕ → Prop} {key : ℕ → H} {h h' : H} {n k k' : ℕ}

theorem chain_unlink (hL : Filed L live key) (hlt : ∀ n, live n → n < k) (hn : live n)
    (hh : h ≠ key n) : (L.unlink n).chain k h = L.chain k h := by
  obtain ⟨c, hF, hc⟩ := hL
  have hmem : n ∈ c (key n) := (hc _ n).mpr ⟨hn, rfl⟩
  have hout : n ∉ c h := fun hnh => hh ((hc h n).mp hnh).2.symm
  have hF' := hF.unlinked_erase hmem (hF.unlink_unlinked hmem)
  have hlen : (c h).length ≤ k := length_le hlt hc hF h
  have hsame : (c h).erase n = c h := erase_of_not_mem hout
  rw [hF.chain_eq hlen, hF'.chain_eq (by rw [hsame]; exact hlen), hsame]

theorem chain_addHead (hL : Filed L live key) (hlt : ∀ n, live n → n < k) (hk : k ≤ k')
    (hn : ¬ live n) (hh : h ≠ h') : (L.addHead h' n).chain k' h = L.chain k h := by
  obtain ⟨c, hF, hc⟩ := hL
  have hout : ∀ j, n ∉ c j := fun j hj => hn ((hc j n).mp hj).1
  have hF' := hF.inserted_cons hout (hF.addHead_inserted (h := h') hout)
  have hlen : (c h).length ≤ k := length_le hlt hc hF h
  have hsame : update c h' (n :: c h') h = c h := update_of_ne hh ..
  rw [hF.chain_eq hlen, hF'.chain_eq (by rw [hsame]; omega), hsame]

end Chains

variable [DecidableEq H] [DecidableEq N]

theorem prepublish (hL : Filed L live key) (hn : ¬ live n) {w : Word N}
    {p : Option (Slot H N)} : Filed ((L.store (.next n) w).setPprev n p) live key := by
  obtain ⟨c, hF, hc⟩ := hL
  exact ⟨c, hF.prepublish fun k hk => hn ((hc k n).mp hk).1, hc⟩

theorem leave (hL : Filed L live key) (hn : live n) :
    Filed (L.unlink n) (fun x => live x ∧ x ≠ n) key := by
  obtain ⟨c, hF, hc⟩ := hL
  have hn' : n ∈ c (key n) := (hc _ n).mpr ⟨hn, rfl⟩
  obtain ⟨c', hF', hc'⟩ := hF.unlinked hn' (hF.unlink_unlinked hn')
  refine ⟨c', hF', fun h x => ?_⟩
  rw [hc', hc]
  exact and_right_comm

theorem enter (hL : Filed L live key) (hn : ¬ live n) (h : H) :
    Filed (L.addHead h n) (fun x => live x ∨ x = n) (update key n h) := by
  obtain ⟨c, hF, hc⟩ := hL
  have hn' : ∀ k, n ∉ c k := fun k hk => hn ((hc k n).mp hk).1
  obtain ⟨c', hF', hc'⟩ := hF.inserted hn' (hF.addHead_inserted hn')
  refine ⟨c', hF', fun k x => ?_⟩
  rw [hc', hc]
  rcases eq_or_ne x n with rfl | hx
  · simp [hn, eq_comm]
  · simp [hx]

end Filed

end TrieBenchmark.Hlist
