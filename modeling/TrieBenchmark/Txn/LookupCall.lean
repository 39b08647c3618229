import TrieBenchmark.Txn.Invariant
import Mathlib.Data.Set.Insert

/-!
The call of a lookup from its start to its return, for any arm: what the arm has to show of its
steps and of the steps of the others.
-/

namespace TrieBenchmark.Txn

open Function Run

variable {Name : Type} [DecidableEq Name] {arm : Arm} {ok : Sys Name → Act Name → Prop} {t : ℕ}
  {path : List Name} {K : Sys Name → (ℕ → Set ℕ) → Prop}
  {L : Set (Cache Name) → Cache Name → Set ℕ → Pc Name → Prop}
  {R : Set (Cache Name) → List ℕ → DcResult → Prop} {s s' : Sys Name} {S : ℕ → Set ℕ}
  {vs : List (Sys Name)}

def visited (vs : List (Sys Name)) : Set (Cache Name) :=
  {d | ∃ v ∈ vs, v.d = d}

/-- `K` holds in every state of the run, `L` while a lookup of `path` by `t` is under way, and `R`
of what it returns. -/
structure LookupCall (arm : Arm) (ok : Sys Name → Act Name → Prop) (t : ℕ) (path : List Name)
    (K : Sys Name → (ℕ → Set ℕ) → Prop)
    (L : Set (Cache Name) → Cache Name → Set ℕ → Pc Name → Prop)
    (R : Set (Cache Name) → List ℕ → DcResult → Prop) : Prop where
  inv : ∀ {s S}, K s S → Inv arm s S
  act : ∀ {s S a s'}, K s S → ok s a → s.act arm a = some s' → K s' (s.meet arm S a)
  start : ∀ {s S V}, K s S → s.d ∈ V → L V s.d {a | s.d.linked a} (.lkStart arm path)
  live : ∀ {V d S pc}, L V d S pc → pc.busy = true ∧ pc.reads = true
  effect : ∀ {s S a s' V}, K s S → ok s a → s.act arm a = some s' → (s.pc t).busy = true →
    s.d ∈ V → L V s.d (S t) (s.pc t) →
    L (insert s'.d V) s'.d (S t ∪ {a | s'.d.linked a}) (s.pc t)
  step : ∀ {s S V ans}, K s S → (s.pc t).busy = true → s.d ∈ V → L V s.d (S t) (s.pc t) →
    L V s.d (S t) (stepPc arm s.d (s.pc t) ans).2 ∨ ∃ res hosts,
      (stepPc arm s.d (s.pc t) ans).2 = .done (.lookup res hosts) ∧ R V hosts res

structure Looking (t : ℕ) (K : Sys Name → (ℕ → Set ℕ) → Prop)
    (L : Set (Cache Name) → Cache Name → Set ℕ → Pc Name → Prop)
    (R : Set (Cache Name) → List ℕ → DcResult → Prop) (vs : List (Sys Name)) (s : Sys Name)
    (S : ℕ → Set ℕ) : Prop where
  known : K s S
  progress : L (visited vs) s.d (S t) (s.pc t) ∨ ∃ res hosts,
    s.pc t = .done (.lookup res hosts) ∧ R (visited vs) hosts res

theorem Looking.act {a : Act Name} (hC : LookupCall arm ok t path K L R)
    (hk : Looking t K L R vs s S) (hs : s ∈ vs) (hb : (s.pc t).busy = true) (hok : ok s a)
    (ha : s.act arm a = some s') : Looking t K L R (s' :: vs) s' (s.meet arm S a) := by
  have hset : visited (s' :: vs) = insert s'.d (visited vs) := by
    ext d
    simp [visited, eq_comm]
  -- a busy thread of a lookup has not returned
  have hL : L (visited vs) s.d (S t) (s.pc t) := by
    rcases hk.progress with h | ⟨res, hosts, hd, -⟩
    · exact h
    · rw [hd] at hb
      cases hb
  have hL' := hC.effect hk.known hok ha hb (V := visited vs) ⟨s, hs, rfl⟩ hL
  have hcover : S t ∪ {a | s.d.linked a} = S t :=
    Set.union_eq_self_of_subset_right ((hC.inv hk.known).seen t hb).cover
  refine ⟨hC.act hk.known hok ha, ?_⟩
  rcases Sys.act_cases ha with ⟨u, c, rfl, hidle, -, rfl⟩ | ⟨u, ans, rfl, hbu, rfl⟩
  · have hne : t ≠ u := by
      rintro rfl
      rw [hidle] at hb
      cases hb
    have hSt : s.meet arm S (.call u c) t = S t := update_of_ne hne _ _
    rw [hcover] at hL'
    rw [hset, hSt]
    exact .inl (by simpa [hne] using hL')
  · rcases eq_or_ne t u with rfl | hne
    · -- the lookup only reads, in a state it has visited
      have hread : (stepPc arm s.d (s.pc t) ans).1 = s.d := stepPc_reads (hC.live hL).2
      have hSt : s.meet arm S (.step t ans) t = S t := by
        show S t ∪ {a | (stepPc arm s.d (s.pc t) ans).1.linked a} = S t
        rw [hread, hcover]
      rw [hset, hSt]
      simp only [hread, hcover, update_self] at hL' ⊢
      exact hC.step hk.known hb (.inl rfl) hL'
    · refine .inl ?_
      show L _ _ _ (update s.pc u (stepPc arm s.d (s.pc u) ans).2 t)
      rw [hset, update_of_ne hne]
      exact hL'

theorem Looking.start (hC : LookupCall arm ok t path K L R) (hK : K s S)
    (hok : ok s (.call t (.op (.lookup path))))
    (hcall : s.act arm (.call t (.op (.lookup path))) = some s') :
    Looking t K L R [s'] s' (s.meet arm S (.call t (.op (.lookup path)))) := by
  refine ⟨hC.act hK hok hcall, .inl ?_⟩
  rcases Sys.act_cases hcall with ⟨u, c, he, -, -, rfl⟩ | ⟨u, ans, he, -⟩
  · obtain ⟨rfl, rfl⟩ : t = u ∧ Call.op (.lookup path) = c := by simpa using he
    show L _ s.d (update S t {a | s.d.linked a} t)
      (update s.pc t (.lkStart arm path) t)
    rw [update_self, update_self]
    exact hC.start hK ⟨_, List.mem_singleton_self _, rfl⟩
  · cases he

theorem LookupCall.returns (hC : LookupCall arm ok t path K L R) {s₀ s₁ : Sys Name}
    {S₀ : ℕ → Set ℕ} {res : DcResult} {hosts : List ℕ} (hK : K s₀ S₀)
    (hok : ok s₀ (.call t (.op (.lookup path))))
    (hcall : s₀.act arm (.call t (.op (.lookup path))) = some s₁)
    (htrail : Trail (Sys.act arm) ok s₁ vs s) (hbusy : ∀ v ∈ vs.tail, (v.pc t).busy = true)
    (hdone : s.pc t = .done (.lookup res hosts)) : R (visited vs) hosts res := by
  -- along the call, with the states it has gone through
  have hmain : ∀ {vs : List (Sys Name)} {s : Sys Name}, Trail (Sys.act arm) ok s₁ vs s →
      (∀ v ∈ vs.tail, (v.pc t).busy = true) → ∃ S, Looking t K L R vs s S := by
    intro vs s htrail hbusy
    induction htrail with
    | start => exact ⟨_, .start hC hK hok hcall⟩
    | step htr hok ha ih =>
      obtain ⟨S, hk⟩ := ih fun v hv => hbusy v (List.mem_of_mem_tail hv)
      exact ⟨_, hk.act hC htr.mem_last (hbusy _ htr.mem_last) hok ha⟩
  obtain ⟨S, hk⟩ := hmain htrail hbusy
  rcases hk.progress with h | ⟨res', hosts', hpc, hR⟩
  · have hb := (hC.live h).1
    rw [hdone] at hb
    cases hb
  · rw [hdone] at hpc
    cases hpc
    exact hR

end TrieBenchmark.Txn
