import Mathlib.Data.Int.Notation
import Mathlib.Data.List.Perm.Subperm
import TrieBenchmark.Lib.Clock
import TrieBenchmark.Lib.Shelf

/-!
The LRU of the seqlock engine: the membership word of each dentry, the list of each NUMA node, and
the sections that run under the lock of a list.
-/

namespace TrieBenchmark.Seqlock.Lru

open List

open Function (update update_apply update_eq_self update_eq_self_iff update_of_ne update_self)

def lruNodes : ℕ := 64

def shrinkBatch : ℕ := 16

def root : ℕ := 0

inductive Word where
  | off
  | on (nid : ℕ)
  | shrink
  | dead
  deriving DecidableEq, Repr

def lruNid (nid : ℕ) : ℕ :=
  if nid < lruNodes then nid else nid % lruNodes

/-- What the code of the LRU reads and writes of the cache. `published` is set when a dentry enters
its hash chain, `unhashed` is the tag in `d_parent`, `reclaim` are the dentries handed to
`call_rcu`, the last one first. -/
structure Dcache where
  fresh : ℕ
  parent : ℕ → ℕ
  published : ℕ → Bool
  unhashed : ℕ → Bool
  children : ℕ → List ℕ
  word : ℕ → Word
  referenced : ℕ → Bool
  links : Dlist ℕ ℕ
  nrItems : ℕ → ℤ
  reclaim : List ℕ

def dcCreate : Dcache where
  fresh := 1
  parent := fun _ => root
  published := fun _ => false
  unhashed := fun _ => false
  children := fun _ => []
  word := fun _ => .off
  referenced := fun _ => false
  links := .empty
  nrItems := fun _ => 0
  reclaim := []

namespace Dcache

variable (s : Dcache)

def items (i : ℕ) : List ℕ :=
  s.links.follow s.fresh (s.links.head i)

def setWord (d : ℕ) (w : Word) : Dcache :=
  { s with word := update s.word d w }

def setReferenced (d : ℕ) (b : Bool) : Dcache :=
  { s with referenced := update s.referenced d b }

def cmpxchg (d : ℕ) (old new : Word) : Dcache :=
  if s.word d = old then s.setWord d new else s

def lruLinkTailLocked (i d : ℕ) : Dcache :=
  { s with
    links := s.links.linkTail i d
    nrItems := update s.nrItems i (s.nrItems i + 1) }

def lruDelLocked (i d : ℕ) (newst : Word) : Dcache :=
  { s with
    links := s.links.unlink i d
    word := update s.word d newst
    nrItems := update s.nrItems i (s.nrItems i - 1) }

def lruAddNew (i d : ℕ) : Dcache :=
  (s.lruLinkTailLocked i d).setWord d (.on i)

def lruAddClaim (i d : ℕ) : Dcache :=
  if s.word d = .off then (s.setWord d (.on i)).lruLinkTailLocked i d else s

def dentryAlloc (p : ℕ) : Dcache :=
  { s with
    fresh := s.fresh + 1
    parent := update s.parent s.fresh p }

def publish (d : ℕ) : Dcache :=
  { s with
    published := update s.published d true
    children := update s.children (s.parent d) (d :: s.children (s.parent d)) }

def unhash (d : ℕ) : Dcache :=
  { s with
    unhashed := update s.unhashed d true
    children := update s.children (s.parent d) ((s.children (s.parent d)).erase d) }

def callRcu (d : ℕ) : Dcache :=
  { s with reclaim := d :: s.reclaim }

def isolateOne (i : ℕ) (s : Dcache) (d : ℕ) : Clock.Verdict × Dcache :=
  if s.referenced d then
    -- LRU_ROTATE: it stays ON(i)
    (.rotate, ((s.setReferenced d false).lruDelLocked i d (.on i)).lruLinkTailLocked i d)
  else if s.children d ≠ [] then
    -- LRU_REMOVED: alive, a walk puts it on again
    (.drop, s.lruDelLocked i d .off)
  else (.take, s.lruDelLocked i d .shrink)

def isolate (i budget room : ℕ) : List ℕ × Dcache :=
  Clock.sweep (fun s : Dcache => s.links.head i) (isolateOne i) budget room s

end Dcache

def Word.list : Word → Option ℕ
  | .on i => some i
  | _ => none

theorem Word.list_eq_some {w : Word} {i : ℕ} : w.list = some i ↔ w = .on i := by
  cases w <;> simp [list]

theorem Word.list_eq_none {w : Word} : w.list = none ↔ ∀ i, w ≠ .on i := by
  cases w <;> simp [list]

theorem list_update (word : ℕ → Word) (d : ℕ) (w : Word) (x : ℕ) :
    (update word d w x).list = update (fun x => (word x).list) d w.list x := by
  rw [update_apply, update_apply]
  split_ifs <;> rfl

structure Listed (s : Dcache) (ℓ : ℕ → List ℕ) : Prop where
  linked : s.links.Linked ℓ
  word : ∀ i d, d ∈ ℓ i ↔ s.word d = .on i
  count : ∀ i, s.nrItems i = (ℓ i).length

theorem dcCreate_listed : Listed dcCreate fun _ => [] where
  linked := Dlist.empty_linked
  word i d := by simp [dcCreate]
  count _ := rfl

namespace Listed

variable {s : Dcache} {ℓ : ℕ → List ℕ} {i d : ℕ} {w : Word}

theorem congr {s' : Dcache} (hs : Listed s ℓ) (hlinks : s'.links = s.links)
    (hword : s'.word = s.word) (hcount : s'.nrItems = s.nrItems) : Listed s' ℓ where
  linked := hlinks ▸ hs.linked
  word := hword ▸ hs.word
  count := hcount ▸ hs.count

theorem shelved (hs : Listed s ℓ) :
    Shelved s.links (fun d => (s.word d).list) s.nrItems ℓ where
  linked := hs.linked
  named i d := by rw [hs.word, Word.list_eq_some]
  counted := hs.count

theorem of_shelved {on : ℕ → Option ℕ} (h : Shelved s.links on s.nrItems ℓ)
    (hon : ∀ d, (s.word d).list = on d) : Listed s ℓ where
  linked := h.linked
  word i d := by rw [h.named, ← hon, Word.list_eq_some]
  count := h.counted

theorem setWord (hs : Listed s ℓ) (hd : ∀ i, s.word d ≠ .on i) (hw : ∀ i, w ≠ .on i) :
    Listed (s.setWord d w) ℓ := by
  refine .of_shelved hs.shelved fun x => ?_
  show (update s.word d w x).list = (s.word x).list
  rw [list_update, update_apply]
  split_ifs with h
  · rw [h, Word.list_eq_none.mpr hw, Word.list_eq_none.mpr hd]
  · rfl

theorem link {s' : Dcache} (hs : Listed s ℓ) (hd : ∀ i, s.word d ≠ .on i)
    (hlinks : s'.links = s.links.linkTail i d) (hword : s'.word = update s.word d (.on i))
    (hcount : s'.nrItems = update s.nrItems i (s.nrItems i + 1)) :
    Listed s' (update ℓ i (ℓ i ++ [d])) := by
  have h := hs.shelved.link (l := i) (Word.list_eq_none.mpr hd)
  rw [← hlinks, ← hcount] at h
  refine .of_shelved h fun x => ?_
  rw [hword, list_update]
  rfl

theorem lruDelLocked (hs : Listed s ℓ) (hd : s.word d = .on i) (hw : ∀ j, w ≠ .on j) :
    Listed (s.lruDelLocked i d w) (update ℓ i ((ℓ i).erase d)) := by
  refine .of_shelved (hs.shelved.unlink (Word.list_eq_some.mpr hd)) fun x => ?_
  show (update s.word d w x).list = _
  rw [list_update, Word.list_eq_none.mpr hw]

theorem rotate (hs : Listed s ℓ) (hd : s.word d = .on i) :
    Listed ((s.lruDelLocked i d (.on i)).lruLinkTailLocked i d)
      (update ℓ i ((ℓ i).erase d ++ [d])) := by
  refine .of_shelved (hs.shelved.rotate (Word.list_eq_some.mpr hd)) fun x => ?_
  show (update s.word d (.on i) x).list = _
  rw [← hd, update_eq_self]

theorem items_eq (hs : Listed s ℓ) (hlt : ∀ d i, s.word d = .on i → d < s.fresh) (i : ℕ) :
    s.items i = ℓ i := by
  apply hs.linked.follow_head
  have hsub : ℓ i ⊆ range s.fresh := by
    intro d hd
    rw [mem_range]
    exact hlt d i ((hs.word i d).mp hd)
  simpa using ((hs.linked.nodup i).subperm hsub).length_le

theorem word_of_head (hs : Listed s ℓ) (hd : s.links.head i = some d) : s.word d = .on i := by
  rw [hs.linked.head] at hd
  exact (hs.word i d).mp (mem_of_mem_head? hd)

theorem isolateOne {l : List ℕ} (hs : Listed s ℓ) (hl : ℓ i = d :: l) :
    Listed (s.isolateOne i d).2 (update ℓ i ((s.isolateOne i d).1.rest d l)) := by
  have hd : s.word d = .on i := (hs.word i d).mp (by simp [hl])
  have herase : (ℓ i).erase d = l := by rw [hl, erase_cons_head]
  unfold Dcache.isolateOne
  split_ifs with href hkids
  · have hs' : Listed (s.setReferenced d false) ℓ := hs.congr rfl rfl rfl
    have h := hs'.rotate (i := i) (d := d) hd
    rwa [herase] at h
  · have h := hs.lruDelLocked (w := .off) hd fun _ => Word.noConfusion
    rwa [herase] at h
  · have h := hs.lruDelLocked (w := .shrink) hd fun _ => Word.noConfusion
    rwa [herase] at h

end Listed

structure SameTree (s s' : Dcache) : Prop where
  fresh : s'.fresh = s.fresh
  parent : s'.parent = s.parent
  published : s'.published = s.published
  unhashed : s'.unhashed = s.unhashed
  children : s'.children = s.children
  reclaim : s'.reclaim = s.reclaim

theorem SameTree.refl (s : Dcache) : SameTree s s :=
  ⟨rfl, rfl, rfl, rfl, rfl, rfl⟩

theorem SameTree.trans {s s₁ s' : Dcache} (h : SameTree s s₁) (h' : SameTree s₁ s') :
    SameTree s s' where
  fresh := h'.fresh.trans h.fresh
  parent := h'.parent.trans h.parent
  published := h'.published.trans h.published
  unhashed := h'.unhashed.trans h.unhashed
  children := h'.children.trans h.children
  reclaim := h'.reclaim.trans h.reclaim

def verdictWord (i : ℕ) : Clock.Verdict → Word
  | .rotate => .on i
  | .drop => .off
  | .take => .shrink

section Visit

variable (s : Dcache) (i d : ℕ)

theorem isolateOne_sameTree : SameTree s (s.isolateOne i d).2 := by
  unfold Dcache.isolateOne
  split_ifs <;> exact ⟨rfl, rfl, rfl, rfl, rfl, rfl⟩

theorem isolateOne_word : (s.isolateOne i d).2.word =
    update s.word d (verdictWord i (s.isolateOne i d).1) := by
  unfold Dcache.isolateOne
  split_ifs <;> rfl

theorem isolateOne_referenced : (s.isolateOne i d).2.referenced =
    update s.referenced d false := by
  unfold Dcache.isolateOne
  split_ifs with href
  · rfl
  · exact (update_eq_self_iff.mpr (Bool.eq_false_iff.mpr href).symm).symm
  · exact (update_eq_self_iff.mpr (Bool.eq_false_iff.mpr href).symm).symm

theorem isolateOne_take_iff :
    (s.isolateOne i d).1 = .take ↔ s.referenced d = false ∧ s.children d = [] := by
  unfold Dcache.isolateOne
  split_ifs with href hkids
  · simp [href]
  · simp [hkids]
  · simpa [href] using hkids

theorem isolateOne_rotate_iff : (s.isolateOne i d).1 = .rotate ↔ s.referenced d = true := by
  unfold Dcache.isolateOne
  split_ifs with href hkids
  · simp [href]
  · simp [href]
  · simp [href]

end Visit

structure Isolates (i : ℕ) (s : Dcache) (batch : List ℕ) (s' : Dcache) : Prop where
  tree : SameTree s s'
  listed : ∃ ℓ, Listed s' ℓ
  nodup : batch.Nodup
  taken : ∀ d ∈ batch, s.word d = .on i ∧ s.children d = [] ∧ s'.word d = .shrink
  other : ∀ d ∉ batch, s'.word d = s.word d ∨ s.word d = .on i ∧ s'.word d = .off

namespace Isolates

variable {i d : ℕ} {s s' : Dcache} {l : List ℕ}

theorem refl (hs : ∃ ℓ, Listed s ℓ) : Isolates i s [] s :=
  ⟨.refl s, hs, nodup_nil, fun _ h => (by cases h), fun _ _ => .inl rfl⟩

theorem visit (hd : s.word d = .on i) (h : Isolates i (s.isolateOne i d).2 l s') :
    Isolates i s (if (s.isolateOne i d).1 = .take then d :: l else l) s' := by
  have htree := isolateOne_sameTree s i d
  have hword := isolateOne_word s i d
  have hself : (s.isolateOne i d).2.word d = verdictWord i (s.isolateOne i d).1 := by
    rw [hword, update_self]
  have hne : ∀ {x}, x ≠ d → (s.isolateOne i d).2.word x = s.word x := by
    intro x hx
    rw [hword, update_of_ne hx]
  have htaken : ∀ x ∈ l, s.word x = .on i ∧ s.children x = [] ∧ s'.word x = .shrink := by
    intro x hx
    obtain ⟨hon, hkids, hshrink⟩ := h.taken x hx
    rw [htree.children] at hkids
    rcases eq_or_ne x d with rfl | hxd
    · exact ⟨hd, hkids, hshrink⟩
    · exact ⟨hne hxd ▸ hon, hkids, hshrink⟩
  have hother : ∀ x ∉ l, x ≠ d → s'.word x = s.word x ∨ s.word x = .on i ∧ s'.word x = .off := by
    intro x hx hxd
    rw [← hne hxd]
    exact h.other x hx
  split_ifs with hv
  · -- the entry is off the list, so the rest of the section does not meet it again
    rw [hv] at hself
    have hdl : d ∉ l := fun hdl => by
      rw [(h.taken d hdl).1] at hself
      cases hself
    refine ⟨htree.trans h.tree, h.listed, nodup_cons.mpr ⟨hdl, h.nodup⟩, ?_, ?_⟩
    · intro x hx
      rcases mem_cons.mp hx with rfl | hx
      · refine ⟨hd, ((isolateOne_take_iff s i x).mp hv).2, ?_⟩
        rcases h.other x hdl with he | ⟨hon, -⟩
        · rw [he, hself]
          rfl
        · rw [hon] at hself
          cases hself
      · exact htaken x hx
    · intro x hx
      rw [mem_cons, not_or] at hx
      exact hother x hx.2 hx.1
  · refine ⟨htree.trans h.tree, h.listed, h.nodup, htaken, fun x hx => ?_⟩
    rcases eq_or_ne x d with rfl | hxd
    · rcases h.other x hx with he | ⟨-, hoff⟩
      · rw [he, hself, hd]
        cases hv' : (s.isolateOne i x).1 with
        | rotate => exact .inl rfl
        | drop => exact .inr ⟨rfl, rfl⟩
        | take => exact absurd hv' hv
      · exact .inr ⟨hd, hoff⟩
    · exact hother x hx hxd

end Isolates

theorem isolate_isolates {s : Dcache} (hs : ∃ ℓ, Listed s ℓ) (i budget room : ℕ) :
    Isolates i s (s.isolate i budget room).1 (s.isolate i budget room).2 := by
  apply Clock.sweep_rule (I := fun s => ∃ ℓ, Listed s ℓ) (P := Isolates i)
  · intro s hs
    exact .refl hs
  · rintro s d ⟨ℓ, hs⟩ hd
    have hl := hs.linked.head i
    rw [hd] at hl
    obtain ⟨l, hl⟩ := head?_eq_some_iff.mp hl.symm
    exact ⟨_, hs.isolateOne hl⟩
  · rintro s d l s' ⟨ℓ, hs⟩ hd h
    exact .visit (hs.word_of_head hd) h
  · exact hs

end TrieBenchmark.Seqlock.Lru
