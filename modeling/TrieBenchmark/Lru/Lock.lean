import TrieBenchmark.Lib.Clock
import TrieBenchmark.Lib.Shelf

/-!
The sharded LRU of `dcache_lru.h`, lock arm, which the engines other than the seqlock one share:
the membership word of each dentry, the list of each shard, and the sections that run under the
lock of a shard.
-/

namespace TrieBenchmark.LruLock

open Function (update update_apply update_eq_self update_eq_self_iff update_idem)

/-- `d_lru.shard`; `killed i` is `DC_LRU_SHRINK(i)` with `DC_LRU_KILL_BIT`. -/
inductive Word where
  | off
  | dead
  | on (i : ℕ)
  | shrink (i : ℕ)
  | killed (i : ℕ)
  deriving DecidableEq, Repr

def Word.shard : Word → Option ℕ
  | .on i => some i
  | _ => none

def Word.owned : Word → Bool
  | .off => false
  | .dead => false
  | _ => true

/-- What the LRU asks of the engine that includes it. `lru_evict_settled` answers -EAGAIN and
leaves the cache as it is, or removes the dentry from both indexes. -/
structure Engine (σ : Type) where
  childrenEmpty : σ → ℕ → Bool
  lruAliveHint : σ → ℕ → Bool
  lruEvictSettled : σ → ℕ → Option σ

/-- The engine's cache with the fields of the LRU; `reclaim` are the dentries handed to
`dc_reclaim`, the last one first. -/
structure Dcache (σ : Type) where
  tree : σ
  word : ℕ → Word
  referenced : ℕ → Bool
  links : Dlist ℕ ℕ
  count : ℕ → ℤ
  reclaim : List ℕ

def Dcache.create {σ : Type} (tree : σ) : Dcache σ where
  tree := tree
  word := fun _ => .off
  referenced := fun _ => false
  links := .empty
  count := fun _ => 0
  reclaim := []

variable {σ : Type}

namespace Dcache

variable (E : Engine σ) (s : Dcache σ)

def items (i : ℕ) : List ℕ :=
  s.links.follow (s.count i).toNat (s.links.head i)

def setWord (d : ℕ) (w : Word) : Dcache σ :=
  { s with word := update s.word d w }

def setReferenced (d : ℕ) (b : Bool) : Dcache σ :=
  { s with referenced := update s.referenced d b }

def lruLinkTailLocked (i d : ℕ) : Dcache σ :=
  { s with
    links := s.links.linkTail i d
    word := update s.word d (.on i)
    count := update s.count i (s.count i + 1) }

def lruUnlinkLockedTo (i d : ℕ) (newst : Word) : Dcache σ :=
  { s with
    links := s.links.unlink i d
    word := update s.word d newst
    count := update s.count i (s.count i - 1) }

def lruUnlinkLocked (i d : ℕ) : Dcache σ :=
  s.lruUnlinkLockedTo i d .off

def lruShrinkMoveLocked (i d : ℕ) : Dcache σ :=
  s.lruUnlinkLockedTo i d (.shrink i)

def lruShrinkReleaseLocked (d : ℕ) : Dcache σ :=
  s.setWord d .dead

def lruRotateLocked (i d : ℕ) : Dcache σ :=
  (s.lruUnlinkLockedTo i d (.on i)).lruLinkTailLocked i d

def dcReclaim (d : ℕ) : Dcache σ :=
  { s with reclaim := d :: s.reclaim }

def lruAdd (i d : ℕ) : Dcache σ :=
  if !E.lruAliveHint s.tree d then s
  else if s.word d = .off then s.lruLinkTailLocked i d
  else s

def lruAddNew (i d : ℕ) : Dcache σ :=
  s.lruLinkTailLocked i d

def lruRetain (i d : ℕ) : Dcache σ :=
  if (s.word d).owned then s.setReferenced d true else s.lruAdd E i d

def lruDelCanFree (d : ℕ) (freeing : Bool) : Bool × Dcache σ :=
  match s.word d with
  | .dead => (true, s)
  | .off => (true, s.setWord d .dead)
  | .on i => (true, s.lruUnlinkLockedTo i d (if freeing then .dead else .off))
  -- the shrinker has it: a caller about to free it hands that over
  | .shrink i => if freeing then (false, s.setWord d (.killed i)) else (true, s)
  | .killed _ => (!freeing, s)

end Dcache

def Listed (s : Dcache σ) (ℓ : ℕ → List ℕ) : Prop :=
  Shelved s.links (fun d => (s.word d).shard) s.count ℓ

theorem Listed.create (tree : σ) : Listed (Dcache.create tree) fun _ => [] :=
  .empty

theorem shard_update (word : ℕ → Word) (d : ℕ) (w : Word) :
    (fun x => (update word d w x).shard) =
      update (fun x => (word x).shard) d w.shard := by
  funext x
  rw [update_apply, update_apply]
  split_ifs <;> rfl

namespace Listed

variable {s s' : Dcache σ} {ℓ : ℕ → List ℕ} {i d : ℕ} {w : Word}

theorem congr (hs : Listed s ℓ) (hlinks : s'.links = s.links) (hword : s'.word = s.word)
    (hcount : s'.count = s.count) : Listed s' ℓ := by
  unfold Listed
  rw [hlinks, hword, hcount]
  exact hs

theorem items_eq (hs : Listed s ℓ) (i : ℕ) : s.items i = ℓ i :=
  Shelved.items_eq hs i

theorem mem_iff (hs : Listed s ℓ) : d ∈ ℓ i ↔ s.word d = .on i := by
  rw [hs.named]
  cases s.word d <;> simp [Word.shard]

theorem setWord (hs : Listed s ℓ) (hd : (s.word d).shard = none) (hw : w.shard = none) :
    Listed (s.setWord d w) ℓ := by
  have hsame : (fun x => (update s.word d w x).shard) = fun x => (s.word x).shard := by
    rw [shard_update, hw, ← hd, update_eq_self_iff]
  unfold Listed Dcache.setWord
  rw [hsame]
  exact hs

theorem lruLinkTailLocked (hs : Listed s ℓ) (hd : (s.word d).shard = none) :
    Listed (s.lruLinkTailLocked i d) (update ℓ i (ℓ i ++ [d])) := by
  have hlink := Shelved.link (l := i) hs hd
  unfold Listed Dcache.lruLinkTailLocked
  rw [shard_update]
  exact hlink

theorem lruUnlinkLockedTo (hs : Listed s ℓ) (hd : s.word d = .on i) (hw : w.shard = none) :
    Listed (s.lruUnlinkLockedTo i d w) (update ℓ i ((ℓ i).erase d)) := by
  have hunlink := Shelved.unlink hs (n := d) (l := i) (by rw [hd]; rfl)
  unfold Listed Dcache.lruUnlinkLockedTo
  rw [shard_update, hw]
  exact hunlink

theorem lruRotateLocked (hs : Listed s ℓ) (hd : s.word d = .on i) :
    Listed (s.lruRotateLocked i d) (update ℓ i ((ℓ i).erase d ++ [d])) := by
  have hrotate := Shelved.rotate hs (n := d) (l := i) (by rw [hd]; rfl)
  have hword : update (update s.word d (.on i)) d (.on i) = s.word := by
    rw [update_idem, ← hd, update_eq_self]
  unfold Listed Dcache.lruRotateLocked Dcache.lruLinkTailLocked Dcache.lruUnlinkLockedTo
  rw [hword]
  exact hrotate

theorem lruAdd (hs : Listed s ℓ) (E : Engine σ) (i d : ℕ) :
    ∃ ℓ', Listed (s.lruAdd E i d) ℓ' := by
  unfold Dcache.lruAdd
  split_ifs with halive hoff
  · exact ⟨ℓ, hs⟩
  · exact ⟨_, hs.lruLinkTailLocked (by rw [hoff]; rfl)⟩
  · exact ⟨ℓ, hs⟩

theorem lruRetain (hs : Listed s ℓ) (E : Engine σ) (i d : ℕ) :
    ∃ ℓ', Listed (s.lruRetain E i d) ℓ' := by
  unfold Dcache.lruRetain
  split_ifs
  · exact ⟨ℓ, hs.congr rfl rfl rfl⟩
  · exact hs.lruAdd E i d

theorem lruDelCanFree (hs : Listed s ℓ) (d : ℕ) (freeing : Bool) :
    ∃ ℓ', Listed (s.lruDelCanFree d freeing).2 ℓ' := by
  unfold Dcache.lruDelCanFree
  split
  · exact ⟨ℓ, hs⟩
  · rename_i hd
    exact ⟨ℓ, hs.setWord (by rw [hd]; rfl) rfl⟩
  · rename_i i hd
    refine ⟨_, hs.lruUnlinkLockedTo hd ?_⟩
    split_ifs <;> rfl
  · rename_i i hd
    split_ifs
    · exact ⟨ℓ, hs.setWord (by rw [hd]; rfl) rfl⟩
    · exact ⟨ℓ, hs⟩
  · exact ⟨ℓ, hs⟩

end Listed

end TrieBenchmark.LruLock
