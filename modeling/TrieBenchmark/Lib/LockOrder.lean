import Mathlib.Data.Finset.Max

/-!
Locks that every thread takes in one order: a thread that waits has only locks below the one it
waits for.
-/

namespace TrieBenchmark.LockOrder

variable {T L K : Type} [LinearOrder K] {key : L → K} {waits : T → Option L} {owner : L → Option T}
  {B : Finset T}

/-- Of the threads `B`, to which all owners belong, one waits for no lock that is taken: the one
that waits for the highest lock would wait for a thread that waits for a higher one. -/
theorem exists_not_blocked (hB : B.Nonempty) (hmem : ∀ l t, owner l = some t → t ∈ B)
    (hup : ∀ t l l', owner l = some t → waits t = some l' → key l < key l') :
    ∃ t ∈ B, ∀ l, waits t = some l → owner l = none := by
  by_contra hnone
  have hblocked : ∀ t ∈ B, ∃ l t', waits t = some l ∧ owner l = some t' := by
    intro t ht
    by_contra hfree
    refine hnone ⟨t, ht, fun l hl => Option.eq_none_iff_forall_ne_some.mpr fun t' ht' => ?_⟩
    exact hfree ⟨l, t', hl, ht'⟩
  obtain ⟨t₀, ht₀⟩ := hB
  obtain ⟨l₀, -⟩ := hblocked t₀ ht₀
  have : Nonempty L := ⟨l₀⟩
  choose! lock next hwaits howner using hblocked
  obtain ⟨t, ht, hmax⟩ := B.exists_max_image (fun t => key (lock t)) ⟨t₀, ht₀⟩
  have hnext := hmem _ _ (howner t ht)
  have hlt := hup _ _ _ (howner t ht) (hwaits _ hnext)
  exact absurd (hmax _ hnext) (not_le.mpr hlt)

end TrieBenchmark.LockOrder
