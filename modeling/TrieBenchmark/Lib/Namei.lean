import Mathlib.Data.List.Infix
import Mathlib.Data.List.Induction
import Mathlib.Data.Fintype.Card

/-!
Paths through a child map: which vertex a list of names leads to, and how that changes when one
binding is made, dropped, moved or swapped with another.
-/

namespace TrieBenchmark.Namei

open Option List

variable {V Name : Type} {child child' : V → Name → Option V} {r u v h : V} {p q path src dst : List Name}
  {n : Name}

def resolve (child : V → Name → Option V) : V → List Name → Option V
  | v, [] => some v
  | v, n :: p => (child v n).bind (resolve child · p)

@[simp] theorem resolve_nil (child : V → Name → Option V) (v : V) : resolve child v [] = some v := rfl

theorem resolve_append (u : V) (p q : List Name) :
    resolve child u (p ++ q) = (resolve child u p).bind (resolve child · q) := by
  induction p generalizing u with
  | nil => rfl
  | cons n p ih =>
    show (child u n).bind (resolve child · (p ++ q)) = _
    rw [resolve, bind_assoc]
    exact congrArg _ (funext ih)

theorem resolve_concat (u : V) (p : List Name) (n : Name) :
    resolve child u (p ++ [n]) = (resolve child u p).bind (child · n) := by
  rw [resolve_append]
  exact congrArg _ (funext fun v => by simp [resolve])

theorem resolve_dir (hv : resolve child u p = some v) (n : Name) :
    resolve child u (p ++ [n]) = child v n := by
  rw [resolve_concat, hv, bind_some]

theorem resolve_dir_none (hv : resolve child u p = none) (n : Name) :
    resolve child u (p ++ [n]) = none := by
  rw [resolve_concat, hv, bind_none]

theorem resolve_append_of (hv : resolve child u p = some v) (q : List Name) :
    resolve child u (p ++ q) = resolve child v q := by
  rw [resolve_append, hv, bind_some]

theorem exists_of_prefix (hq : resolve child u q = some v) (hp : p <+: q) :
    ∃ w, resolve child u p = some w := by
  obtain ⟨t, rfl⟩ := hp
  rw [resolve_append] at hq
  obtain ⟨w, hw, -⟩ := bind_eq_some_iff.mp hq
  exact ⟨w, hw⟩

structure Rooted (child : V → Name → Option V) (r : V) : Prop where
  inj : ∀ {v v' n n' h}, child v n = some h → child v' n' = some h → v = v' ∧ n = n'
  root : ∀ v n, child v n ≠ some r

theorem Rooted.resolve_inj (hR : Rooted child r) (hp : resolve child r p = some v)
    (hq : resolve child r q = some v) : p = q := by
  induction p using reverseRecOn generalizing q v with
  | nil =>
    obtain rfl : r = v := some.inj hp
    induction q using reverseRecOn with
    | nil => rfl
    | append_singleton _ n =>
      rw [resolve_concat] at hq
      obtain ⟨w, -, hw⟩ := bind_eq_some_iff.mp hq
      exact absurd hw (hR.root w n)
  | append_singleton _ n ih =>
    rw [resolve_concat] at hp
    obtain ⟨w, hw, hwn⟩ := bind_eq_some_iff.mp hp
    induction q using reverseRecOn with
    | nil =>
      obtain rfl : r = v := some.inj hq
      exact absurd hwn (hR.root w n)
    | append_singleton =>
      rw [resolve_concat] at hq
      obtain ⟨w', hw', hwm⟩ := bind_eq_some_iff.mp hq
      obtain ⟨rfl, rfl⟩ := hR.inj hwn hwm
      rw [ih hw hw']

/-- Every prefix of a path leads somewhere else, so a path is shorter than there are places. -/
theorem Rooted.length_lt {child : ℕ → Name → Option ℕ} {r v k : ℕ} (hR : Rooted child r)
    (hlt : ∀ p v, resolve child r p = some v → v < k) (hp : resolve child r p = some v) :
    p.length < k := by
  have hpre : ∀ i : Fin (p.length + 1), ∃ w, resolve child r (p.take i) = some w := fun i =>
    exists_of_prefix hp <| take_prefix i p
  choose f hf using hpre
  have hinj : Function.Injective fun i => (⟨f i, hlt _ _ (hf i)⟩ : Fin k) := by
    intro i j he
    have hpath := hR.resolve_inj (hf i) ((Fin.mk.inj he) ▸ hf j)
    have hlen := congrArg length hpath
    rw [length_take, length_take] at hlen
    exact Fin.ext (by omega)
  have hcard := Fintype.card_le_of_injective _ hinj
  rw [Fintype.card_fin, Fintype.card_fin] at hcard
  exact hcard

theorem resolve_congr
    (hA : ∀ q n v, q ++ [n] <+: p → resolve child u q = some v → child' v n = child v n) :
    resolve child' u p = resolve child u p := by
  induction p using reverseRecOn with
  | nil => rfl
  | append_singleton p n ih =>
    have hpre : resolve child' u p = resolve child u p :=
      ih fun q m v hq hv => hA q m v (hq.trans (prefix_append p [n])) hv
    rw [resolve_concat, resolve_concat, hpre]
    cases hv : resolve child u p with
    | none => rfl
    | some v => exact hA p n v (prefix_refl _) hv

/-- A walk that goes from a vertex to its parent, at most `k` times, meets the vertex at `src` iff
the path it climbs goes through it. -/
theorem Rooted.climb {P : Type} {S : P → P → Prop} {W : V → ℕ → P} {L A : P} {k hops : ℕ}
    (htrans : ∀ {x y z}, S x y → S y z → S x z) (hR : Rooted child r)
    (hsrc : resolve child r src = some h) (hne : src ≠ []) (hloop : ∀ i, S (W h i) L)
    (harrive : ∀ i, S (W r i) A)
    (hup : ∀ dir n u v i, dir ++ [n] <+: q → resolve child r dir = some u →
      resolve child r (dir ++ [n]) = some v → v ≠ h → i < k → S (W v i) (W u (i + 1)))
    (hq : resolve child r q = some v) (hlen : q.length + hops ≤ k) :
    (src <+: q → S (W v hops) L) ∧ (¬ src <+: q → S (W v hops) A) := by
  induction q using reverseRecOn generalizing v hops with
  | nil =>
    obtain rfl : r = v := some.inj hq
    exact ⟨fun hp => absurd (prefix_nil.mp hp) hne, fun _ => harrive _⟩
  | append_singleton q n ih =>
    by_cases hv : v = h
    · subst hv
      have he : q ++ [n] = src := hR.resolve_inj hq hsrc
      exact ⟨fun _ => hloop _, fun hp => absurd (he ▸ prefix_refl _) hp⟩
    obtain ⟨u, hu⟩ := exists_of_prefix hq (prefix_append q [n])
    rw [length_append, length_singleton] at hlen
    have hstep := hup q n u v hops (prefix_refl _) hu hq hv (by omega)
    have hsub := ih (fun dir m u v i hp => hup dir m u v i (hp.trans (prefix_append q [n]))) hu
      (show q.length + (hops + 1) ≤ k by omega)
    have hiff : src <+: q ++ [n] ↔ src <+: q := by
      rw [prefix_concat_iff]
      refine or_iff_right fun he => hv ?_
      rw [he] at hsrc
      exact some.inj (hq.symm.trans hsrc)
    rw [hiff]
    exact ⟨fun hp => htrans hstep (hsub.1 hp), fun hp => htrans hstep (hsub.2 hp)⟩

theorem not_append_prefix_self (p : List Name) (n : Name) : ¬ p ++ [n] <+: p := by
  intro hp
  have hlen := hp.length_le
  rw [length_append, length_singleton] at hlen
  omega

section Edits

variable {a b : V} {na nb : Name} {pa pb : List Name}

/-- What a binding away from one path's end leaves: every path that does not go over it. -/
theorem Rooted.resolve_of_ne (hR : Rooted child r) (ha : resolve child r pa = some a)
    (hb : resolve child r pb = some b)
    (hA : ∀ v n, (v, n) ≠ (a, na) → (v, n) ≠ (b, nb) → child' v n = child v n)
    (hpa : ¬ pa ++ [na] <+: p) (hpb : ¬ pb ++ [nb] <+: p) :
    resolve child' r p = resolve child r p := by
  apply resolve_congr
  intro q n v hq hv
  apply hA
  · rintro ⟨⟩
    exact hpa (hR.resolve_inj ha hv ▸ hq)
  · rintro ⟨⟩
    exact hpb (hR.resolve_inj hb hv ▸ hq)

/-- Below a vertex the walk is the old one, unless an edited binding is below it. -/
theorem Rooted.resolve_below (hR : Rooted child r) (ha : resolve child r pa = some a)
    (hb : resolve child r pb = some b)
    (hA : ∀ v n, (v, n) ≠ (a, na) → (v, n) ≠ (b, nb) → child' v n = child v n)
    (hpath : resolve child r path = some h) (hpa : ¬ path <+: pa) (hpb : ¬ path <+: pb)
    (q : List Name) : resolve child' h q = resolve child r (path ++ q) := by
  rw [resolve_append_of hpath]
  apply resolve_congr
  intro q n v _ hv
  rw [← resolve_append_of hpath] at hv
  apply hA
  · rintro ⟨⟩
    exact hpa (hR.resolve_inj ha hv ▸ prefix_append path q)
  · rintro ⟨⟩
    exact hpb (hR.resolve_inj hb hv ▸ prefix_append path q)

theorem resolve_below_none (hnone : child' a na = none) (ha : resolve child' r pa = some a)
    (hp : pa ++ [na] <+: p) : resolve child' r p = none := by
  obtain ⟨q, rfl⟩ := hp
  rw [resolve_append, resolve_concat, ha, bind_some, hnone]
  rfl

theorem Rooted.resolve_bound (hR : Rooted child r) (ha : resolve child r pa = some a)
    (hA : ∀ v n, (v, n) ≠ (a, na) → child' v n = child v n) (hfree : child a na = none)
    (hnew : child' a na = some h) (hleaf : ∀ n, child' h n = none) (p : List Name) :
    (p = pa ++ [na] → resolve child' r p = some h) ∧
      (p ≠ pa ++ [na] → resolve child' r p = resolve child r p) := by
  have hkeep : ¬ pa ++ [na] <+: p → resolve child' r p = resolve child r p := fun hp =>
    hR.resolve_of_ne ha ha (fun v n h₁ _ => hA v n h₁) hp hp
  have ha' : resolve child' r pa = some a := by
    rw [hR.resolve_of_ne ha ha (fun v n h₁ _ => hA v n h₁) (not_append_prefix_self pa na)
      (not_append_prefix_self pa na), ha]
  have hat : resolve child' r (pa ++ [na]) = some h := by
    rw [resolve_concat, ha', bind_some, hnew]
  refine ⟨fun he => he ▸ hat, fun hne => ?_⟩
  by_cases hp : pa ++ [na] <+: p
  · rw [resolve_below_none hfree ha hp]
    obtain ⟨q, rfl⟩ := hp
    cases q with
    | nil => simp at hne
    | cons =>
      rw [resolve_append_of hat]
      simp [resolve, hleaf]
  · exact hkeep hp

theorem Rooted.resolve_pruned (hR : Rooted child r) (ha : resolve child r pa = some a)
    (hA : ∀ v n, (v, n) ≠ (a, na) → child' v n = child v n) (hnone : child' a na = none)
    (p : List Name) :
    (pa ++ [na] <+: p → resolve child' r p = none) ∧
      (¬ pa ++ [na] <+: p → resolve child' r p = resolve child r p) := by
  have hkeep : ∀ {p}, ¬ pa ++ [na] <+: p → resolve child' r p = resolve child r p := fun hp =>
    hR.resolve_of_ne ha ha (fun v n h₁ _ => hA v n h₁) hp hp
  refine ⟨fun hp => ?_, hkeep⟩
  exact resolve_below_none hnone ((hkeep (not_append_prefix_self pa na)).trans ha) hp

/-- The vertex bound below `a` is bound below `b` instead, which is not below it. -/
theorem Rooted.resolve_moved (hR : Rooted child r) (ha : resolve child r pa = some a)
    (hb : resolve child r pb = some b)
    (hA : ∀ v n, (v, n) ≠ (a, na) → (v, n) ≠ (b, nb) → child' v n = child v n)
    (hsrc : child a na = some h) (hnone : child' a na = none) (hnew : child' b nb = some h)
    (hloop : ¬ pa ++ [na] <+: pb) :
    (∀ q, resolve child' r (pb ++ [nb] ++ q) = resolve child r (pa ++ [na] ++ q)) ∧
      ∀ p, ¬ pb ++ [nb] <+: p → (pa ++ [na] <+: p → resolve child' r p = none) ∧
        (¬ pa ++ [na] <+: p → resolve child' r p = resolve child r p) := by
  have hpath : resolve child r (pa ++ [na]) = some h := by
    rw [resolve_concat, ha, bind_some, hsrc]
  have hkeep : ∀ {p}, ¬ pa ++ [na] <+: p → ¬ pb ++ [nb] <+: p →
      resolve child' r p = resolve child r p := fun h₁ h₂ => hR.resolve_of_ne ha hb hA h₁ h₂
  refine ⟨fun q => ?_, fun p hpb => ⟨fun hpa => ?_, fun hpa => hkeep hpa hpb⟩⟩
  · have hat : resolve child' r (pb ++ [nb]) = some h := by
      rw [resolve_concat, hkeep hloop (not_append_prefix_self pb nb), hb, bind_some, hnew]
    rw [resolve_append_of hat]
    exact hR.resolve_below ha hb hA hpath (not_append_prefix_self pa na) hloop q
  · have hpre : ¬ pb ++ [nb] <+: pa := fun hp => hpb (hp.trans ((prefix_append _ _).trans hpa))
    exact resolve_below_none hnone ((hkeep (not_append_prefix_self pa na) hpre).trans ha) hpa

/-- Two vertices, neither above the other's directory, take each other's binding. -/
theorem Rooted.resolve_swapped (hR : Rooted child r) (ha : resolve child r pa = some a)
    (hb : resolve child r pb = some b)
    (hA : ∀ v n, (v, n) ≠ (a, na) → (v, n) ≠ (b, nb) → child' v n = child v n) {h' : V}
    (hna : child a na = some h) (hnb : child b nb = some h') (hna' : child' a na = some h')
    (hnb' : child' b nb = some h) (hpa : ¬ pa ++ [na] <+: pb) (hpb : ¬ pb ++ [nb] <+: pa) :
    (∀ q, resolve child' r (pa ++ [na] ++ q) = resolve child r (pb ++ [nb] ++ q)) ∧
      (∀ q, resolve child' r (pb ++ [nb] ++ q) = resolve child r (pa ++ [na] ++ q)) ∧
      ∀ p, ¬ pa ++ [na] <+: p → ¬ pb ++ [nb] <+: p →
        resolve child' r p = resolve child r p := by
  have hkeep : ∀ {p}, ¬ pa ++ [na] <+: p → ¬ pb ++ [nb] <+: p →
      resolve child' r p = resolve child r p := fun h₁ h₂ => hR.resolve_of_ne ha hb hA h₁ h₂
  have hpatha : resolve child r (pa ++ [na]) = some h := by
    rw [resolve_concat, ha, bind_some, hna]
  have hpathb : resolve child r (pb ++ [nb]) = some h' := by
    rw [resolve_concat, hb, bind_some, hnb]
  refine ⟨fun q => ?_, fun q => ?_, fun p => hkeep⟩
  · have hat : resolve child' r (pa ++ [na]) = some h' := by
      rw [resolve_concat, hkeep (not_append_prefix_self pa na) hpb, ha, bind_some, hna']
    rw [resolve_append_of hat]
    exact hR.resolve_below ha hb hA hpathb hpb (not_append_prefix_self pb nb) q
  · have hat : resolve child' r (pb ++ [nb]) = some h := by
      rw [resolve_concat, hkeep hpa (not_append_prefix_self pb nb), hb, bind_some, hnb']
    rw [resolve_append_of hat]
    exact hR.resolve_below ha hb hA hpatha (not_append_prefix_self pa na) hpa q

end Edits

end TrieBenchmark.Namei
