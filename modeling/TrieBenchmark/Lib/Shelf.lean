import Mathlib.Data.Int.Notation
import TrieBenchmark.Lib.Dlist

/-!
Linked lists whose nodes say which list they are on, with a count for each list.
-/

namespace TrieBenchmark

open Function (update update_apply update_eq_self update_idem update_self)

structure Shelved {L N : Type} (links : Dlist L N) (on : N → Option L) (count : L → ℤ)
    (ℓ : L → List N) : Prop where
  linked : links.Linked ℓ
  named : ∀ l n, n ∈ ℓ l ↔ on n = some l
  counted : ∀ l, count l = (ℓ l).length

namespace Shelved

variable {L N : Type} {links : Dlist L N} {on : N → Option L} {count : L → ℤ} {ℓ : L → List N}
  {l : L} {n : N}

theorem empty : Shelved (.empty : Dlist L N) (fun _ => none) (fun _ => 0) fun _ => [] where
  linked := Dlist.empty_linked
  named l n := by simp
  counted _ := rfl

theorem items_eq (h : Shelved links on count ℓ) (l : L) :
    links.follow (count l).toNat (links.head l) = ℓ l := by
  apply h.linked.follow_head
  rw [h.counted]
  simp

variable [DecidableEq L] [DecidableEq N]

theorem link (h : Shelved links on count ℓ) (hn : on n = none) :
    Shelved (links.linkTail l n) (update on n (some l))
      (update count l (count l + 1)) (update ℓ l (ℓ l ++ [n])) where
  linked := by
    apply h.linked.linkTail
    intro l' hl'
    rw [h.named, hn] at hl'
    cases hl'
  named l' m := by
    rw [update_apply, update_apply]
    rcases eq_or_ne m n with he | hm
    · have hout : ∀ l', m ∉ ℓ l' := by
        intro l' hl'
        rw [h.named, he, hn] at hl'
        cases hl'
      rcases eq_or_ne l' l with hl | hl
      · simp [he, hl]
      · simp [he, hl, hl.symm, he ▸ hout l']
    · rw [if_neg hm, ← h.named]
      rcases eq_or_ne l' l with hl | hl
      · simp [hm, hl]
      · simp [hl]
  counted l' := by
    rw [update_apply, update_apply]
    split_ifs
    · rw [h.counted]
      simp
    · exact h.counted l'

theorem unlink (h : Shelved links on count ℓ) (hn : on n = some l) :
    Shelved (links.unlink l n) (update on n none)
      (update count l (count l - 1)) (update ℓ l ((ℓ l).erase n)) where
  linked := h.linked.unlink ((h.named l n).mpr hn)
  named l' m := by
    rw [update_apply, update_apply]
    rcases eq_or_ne m n with he | hm
    · rw [he, if_pos rfl]
      apply iff_of_false
      · split_ifs with hl
        · exact (h.linked.nodup l).not_mem_erase
        · intro hmem
          rw [h.named, hn] at hmem
          exact hl (Option.some.inj hmem).symm
      · exact (Option.some_ne_none l').symm
    · rw [if_neg hm, ← h.named]
      split_ifs with hl
      · rw [hl, List.mem_erase_of_ne hm]
      · rfl
  counted l' := by
    rw [update_apply, update_apply]
    split_ifs
    · have hmem := (h.named l n).mpr hn
      have hpos := List.length_pos_of_mem hmem
      rw [h.counted, List.length_erase_of_mem hmem]
      omega
    · exact h.counted l'

theorem rotate (h : Shelved links on count ℓ) (hn : on n = some l) :
    Shelved ((links.unlink l n).linkTail l n) on
      (update (update count l (count l - 1)) l
        (update count l (count l - 1) l + 1))
      (update ℓ l ((ℓ l).erase n ++ [n])) := by
  have hback := (h.unlink hn).link (l := l) (update_self n none on)
  have hon : update (update on n none) n (some l) = on := by
    rw [update_idem, ← hn, update_eq_self]
  have hlist : update (update ℓ l ((ℓ l).erase n)) l
      (update ℓ l ((ℓ l).erase n) l ++ [n]) =
      update ℓ l ((ℓ l).erase n ++ [n]) := by
    rw [update_idem, update_self]
  rwa [hon, hlist] at hback

end Shelved

end TrieBenchmark
