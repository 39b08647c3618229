import TrieBenchmark.Lib.Reparent
import Mathlib.Logic.Function.Basic
import Mathlib.Data.List.Nodup

/-!
Several movers at work on one tree. Each flags the nodes it moves before it climbs, and gives up
at a flagged node. Then no interleaving of their commits makes a loop.
-/

namespace TrieBenchmark.Reparent

open Function

variable {N T : Type} {p p' : N → N} {r : N} {A A' M M' F F' Y : Set N}

/-- Where a mover is: the nodes it has flagged, its climbs, each with its start and the node it
has come to, and the node whose flag it has just found clear. -/
structure Mover (N : Type) where
  gray : List N
  climbs : List (N × N)
  passed : List N

/-- What a mover may rely on. `M` are the flagged nodes; `F` are those that have been flagged
since it began to climb. -/
structure Climbing (p : N → N) (r : N) (M : Set N) (v : Mover N) (F : Set N) : Prop where
  gray : ∀ a ∈ v.gray, a ∈ M
  nodup : v.gray.Nodup
  flagged : F ⊆ M
  own : v.climbs ≠ [] → ∀ a ∈ v.gray, a ∈ F
  climb : ∀ c ∈ v.climbs, Path p F c.1 c.2 ∨ Path p F c.1 r
  passed : ∀ a ∈ v.passed, a ∉ F

/-- Of two climbing movers, the second has seen the flags of the first, or the first has begun
under all the flags that count for the second. -/
def Ordered (v w : Mover N) (F E : Set N) : Prop :=
  v.climbs ≠ [] → w.climbs ≠ [] → ∀ a ∈ v.gray, a ∈ E ∨ E ⊆ F

structure Safe (p : N → N) (r : N) (A M : Set N) (v : T → Mover N) (F : T → Set N) : Prop where
  rooted : ∀ a ∈ A, Path p ∅ a r
  each : ∀ t, Climbing p r M (v t) (F t)
  apart : ∀ t u, ∀ a ∈ (v t).gray, a ∈ (v u).gray → t = u
  order : ∀ t u, Ordered (v t) (v u) (F t) (F u)

namespace Climbing

variable {v w : Mover N}

theorem stop (hg : ∀ a ∈ w.gray, a ∈ M) (hnd : w.gray.Nodup) (hc : w.climbs = [])
    (hp : w.passed = []) (hF : F ⊆ M) : Climbing p r M w F := by
  refine ⟨hg, hnd, hF, ?_, ?_, ?_⟩
  · simp [hc]
  · simp [hc]
  · simp [hp]

theorem start (hg : ∀ a ∈ w.gray, a ∈ M) (hnd : w.gray.Nodup) (hc : ∀ c ∈ w.climbs, c.1 = c.2)
    (hp : w.passed = []) : Climbing p r M w M := by
  refine ⟨hg, hnd, Set.Subset.refl M, fun _ => hg, fun c hcw => ?_, ?_⟩
  · rw [hc c hcw]
    exact .inl (.refl _)
  · simp [hp]

/-- A climbing mover goes on: it takes over climbs, begins one, or climbs on from a node it has
passed. -/
theorem advance (hC : Climbing p r M v F) (hg : w.gray = v.gray) (hv : v.climbs ≠ [])
    (hc : ∀ c ∈ w.climbs, c ∈ v.climbs ∨ c.1 = c.2 ∨
      ∃ b ∈ v.passed, (c.1, b) ∈ v.climbs ∧ c.2 = p b)
    (hp : ∀ a ∈ w.passed, a ∉ M) : Climbing p r M w F := by
  refine ⟨hg ▸ hC.gray, hg ▸ hC.nodup, hC.flagged, fun _ => hg ▸ hC.own hv, fun c hcw => ?_,
    fun a ha h => hp a ha (hC.flagged h)⟩
  rcases hc c hcw with h | h | ⟨b, hb, hcb, he⟩
  · exact hC.climb c h
  · rw [h]
    exact .inl (.refl _)
  · rw [he]
    exact (hC.climb _ hcb).imp (fun h => h.snoc (hC.passed b hb)) id

theorem other {E : Set N} (hC : Climbing p r M v F) (hM : Moved p p' r E Y)
    (hY : v.climbs ≠ [] → ∀ y ∈ Y, y ∈ F ∨ F ⊆ E) (hg : ∀ a ∈ v.gray, a ∈ M') :
    Climbing p' r M' v (F ∩ M') := by
  refine ⟨hg, hC.nodup, Set.inter_subset_right, fun hne a ha => ⟨hC.own hne a ha, hg a ha⟩,
    fun c hc => ?_, fun a ha h => hC.passed a ha h.1⟩
  have hne : v.climbs ≠ [] := List.ne_nil_of_mem hc
  have hclear : Path p' F c.1 c.2 ∨ Path p' F c.1 r := by
    rcases hC.climb c hc with h | h
    · exact hM.path (hY hne) h
    · exact .inr ((hM.path (hY hne) h).elim id id)
  exact hclear.imp (fun h => h.mono Set.inter_subset_left) fun h => h.mono Set.inter_subset_left

end Climbing

theorem Moved.none (p : N → N) (r : N) (F : Set N) : Moved p p r F ∅ :=
  ⟨fun _ _ => rfl, Set.empty_subset F, by simp⟩

theorem Ordered.inter {v w : Mover N} {E : Set N} (h : Ordered v w F E)
    (hg : ∀ a ∈ v.gray, a ∈ M') : Ordered v w (F ∩ M') (E ∩ M') := by
  intro hv hw a ha
  rcases h hv hw a ha with h | h
  · exact .inl ⟨h, hg a ha⟩
  · exact .inr (Set.inter_subset_inter_left M' h)

namespace Safe

variable [DecidableEq T] {v : T → Mover N} {G : T → Set N} {t : T} {w : Mover N}

/-- One step of a mover: it may move nodes it has flagged, clear its own flags and set new ones,
and go on, stop or begin to climb. -/
theorem step (hS : Safe p r A M v G) (hM : Moved p p' r (G t) Y) (hY : ∀ y ∈ Y, y ∈ (v t).gray)
    (hYc : Y.Nonempty → (v t).climbs ≠ []) (hkeep : ∀ a ∈ M, a ∉ (v t).gray → a ∈ M')
    (hnew : ∀ a ∈ w.gray, a ∈ (v t).gray ∨ a ∉ M) (hw : Climbing p' r M' w F')
    (hgo : w.climbs ≠ [] → F' = M' ∨
      (v t).climbs ≠ [] ∧ (∀ a ∈ w.gray, a ∈ (v t).gray) ∧ F' = G t ∩ M') :
    Safe p' r A M' (update v t w) fun u => if u = t then F' else G u ∩ M' := by
  have hother : ∀ u, u ≠ t → ∀ a ∈ (v u).gray, a ∈ M' := fun u hne a ha =>
    hkeep a ((hS.each u).gray a ha) fun hat => hne (hS.apart u t a ha hat)
  -- a node flagged anew was nobody's
  have hclash : ∀ u, u ≠ t → ∀ a ∈ w.gray, a ∉ (v u).gray := by
    intro u hne a ha hau
    rcases hnew a ha with hat | haM
    · exact hne (hS.apart u t a hau hat)
    · exact haM ((hS.each u).gray a hau)
  have hto : ∀ u, u ≠ t → Ordered w (v u) F' (G u ∩ M') := by
    intro u hne hc hc' a ha
    rcases hgo hc with rfl | ⟨hold, hsub, rfl⟩
    · exact .inr Set.inter_subset_right
    · rcases hS.order t u hold hc' a (hsub a ha) with h | h
      · exact .inl ⟨h, hw.gray a ha⟩
      · exact .inr (Set.inter_subset_inter_left M' h)
  have hfrom : ∀ u, u ≠ t → Ordered (v u) w (G u ∩ M') F' := by
    intro u hne hc hc' a ha
    rcases hgo hc' with rfl | ⟨hold, -, rfl⟩
    · exact .inl (hother u hne a ha)
    · exact (hS.order u t).inter (hother u hne) hc hold a ha
  refine ⟨fun a ha => hM.rooted (hS.rooted a ha), fun u => ?_, fun u u' a ha ha' => ?_,
    fun u u' => ?_⟩
  · by_cases hu : u = t
    · subst hu
      simpa using hw
    · simp only [update_of_ne hu, if_neg hu]
      refine (hS.each u).other hM (fun hc y hy => ?_) (hother u hu)
      exact hS.order t u (hYc ⟨y, hy⟩) hc y (hY y hy)
  · by_cases hu : u = t <;> by_cases hu' : u' = t
    · exact hu.trans hu'.symm
    · rw [hu, update_self] at ha
      rw [update_of_ne hu'] at ha'
      exact absurd ha' (hclash u' hu' a ha)
    · rw [update_of_ne hu] at ha
      rw [hu', update_self] at ha'
      exact absurd ha (hclash u hu a ha')
    · rw [update_of_ne hu] at ha
      rw [update_of_ne hu'] at ha'
      exact hS.apart u u' a ha ha'
  · by_cases hu : u = t <;> by_cases hu' : u' = t
    · simp only [hu, hu', update_self, if_true]
      exact fun hc _ a ha => .inl (hw.own hc a ha)
    · simpa only [hu, update_self, update_of_ne hu', if_true, if_neg hu'] using
        hto u' hu'
    · simpa only [hu', update_self, update_of_ne hu, if_true, if_neg hu] using
        hfrom u hu
    · simpa only [update_of_ne hu, update_of_ne hu', if_neg hu, if_neg hu'] using
        (hS.order u u').inter (hother u hu)

omit [DecidableEq T] in
theorem grow (hS : Safe p r A M v G) (hA : ∀ a ∈ A, p a ∈ A ∧ p' a = p a)
    (hstart : ∀ t, ∀ c ∈ (v t).climbs, c.1 ∈ A) (hA' : ∀ a ∈ A', a ∈ A ∨ p' a ∈ A) :
    Safe p' r A' M v G := by
  have hold : ∀ a ∈ A, Path p' ∅ a r := fun a ha => (hS.rooted a ha).congr hA ha
  refine ⟨fun a ha => ?_, fun t => ?_, hS.apart, hS.order⟩
  · rcases hA' a ha with h | h
    · exact hold a h
    · exact .step (by simp) (hold _ h)
  · obtain ⟨hg, hnd, hf, ho, hc, hp⟩ := hS.each t
    refine ⟨hg, hnd, hf, ho, fun c hct => ?_, hp⟩
    have hcA := hstart t c hct
    exact (hc c hct).imp (fun h => h.congr hA hcA) fun h => h.congr hA hcA

end Safe

end TrieBenchmark.Reparent
