import TrieBenchmark.Lib.Namei
import TrieBenchmark.Serial

/-!
The map from paths to objects that a child map of hosts stands for, and how it changes with the
bindings: what an engine's commit does to its index, seen from the interface.
-/

namespace TrieBenchmark.Serial

open List PathMap Namei

variable {Name : Type} {child child' : ℕ → Name → Option ℕ} {obj obj' : ℕ → Obj} {r : ℕ}
  {path : List Name}

def pathMap (child : ℕ → Name → Option ℕ) (obj : ℕ → Obj) (r : ℕ) : PathMap Name :=
  ⟨fun path => (resolve child r path).map obj⟩

theorem pathMap_eq_none {p : List Name} :
    (pathMap child obj r).find p = none ↔ resolve child r p = none := by
  simp [pathMap]

theorem pathMap_eq_some {p : List Name} {o : Obj} :
    (pathMap child obj r).find p = some o ↔ ∃ h, resolve child r p = some h ∧ obj h = o := by
  simp [pathMap, Option.map_eq_some_iff]

theorem pathMap_leaf (hc : ∀ n, child r n = none) :
    pathMap child obj r = PathMap.bind ⟨fun _ => none⟩ [] (obj r) := by
  apply PathMap.ext
  funext p
  cases p with
  | nil => simp [pathMap]
  | cons =>
    rw [bind_find_of_ne (by simp)]
    simp [pathMap, resolve, hc]

def SameObjs (child : ℕ → Name → Option ℕ) (r : ℕ) (obj obj' : ℕ → Obj) : Prop :=
  ∀ p h, resolve child r p = some h → obj' h = obj h

theorem SameObjs.find (hO : SameObjs child r obj obj') {p q : List Name}
    (hp : resolve child' r p = resolve child r q) :
    (pathMap child' obj' r).find p = (pathMap child obj r).find q := by
  simp only [pathMap]
  rw [hp]
  cases hq : resolve child r q with
  | none => rfl
  | some h => simp [hO q h hq]

theorem pathMap_congr (hO : SameObjs child r obj obj') (hc : ∀ v n, child' v n = child v n) :
    pathMap child' obj' r = pathMap child obj r := by
  obtain rfl : child' = child := funext fun v => funext (hc v)
  apply PathMap.ext
  funext p
  exact hO.find rfl

theorem pathMap_set (hR : Rooted child r) (hc : ∀ v n, child' v n = child v n)
    {h : ℕ} (hh : resolve child r path = some h) (hobj : ∀ a, a ≠ h → obj' a = obj a) :
    pathMap child' obj' r = (pathMap child obj r).bind path (obj' h) := by
  obtain rfl : child' = child := funext fun v => funext (hc v)
  apply PathMap.ext
  funext p
  by_cases hp : p = path
  · subst hp
    simp [pathMap, hh]
  · rw [bind_find_of_ne hp]
    simp only [pathMap]
    cases hq : resolve child' r p with
    | none => rfl
    | some v =>
      have hne : v ≠ h := fun he => hp (hR.resolve_inj hq (he ▸ hh))
      simp [hobj v hne]

section Edits

variable {a b : ℕ} {na nb : Name} {pa pb : List Name} {h : ℕ}

theorem pathMap_bind (hR : Rooted child r) (hO : SameObjs child r obj obj')
    (ha : resolve child r pa = some a)
    (hA : ∀ v n, (v, n) ≠ (a, na) → child' v n = child v n) (hfree : child a na = none)
    (hnew : child' a na = some h) (hleaf : ∀ n, child' h n = none) :
    pathMap child' obj' r = (pathMap child obj r).bind (pa ++ [na]) (obj' h) := by
  apply PathMap.ext
  funext p
  obtain ⟨hat, hother⟩ := hR.resolve_bound ha hA hfree hnew hleaf p
  by_cases hp : p = pa ++ [na]
  · subst hp
    simp [pathMap, hat rfl]
  · rw [bind_find_of_ne hp]
    exact hO.find (hother hp)

theorem pathMap_prune (hR : Rooted child r) (hO : SameObjs child r obj obj')
    (ha : resolve child r pa = some a)
    (hA : ∀ v n, (v, n) ≠ (a, na) → child' v n = child v n) (hnone : child' a na = none) :
    pathMap child' obj' r = (pathMap child obj r).prune (pa ++ [na]) := by
  apply PathMap.ext
  funext p
  obtain ⟨hbelow, hother⟩ := hR.resolve_pruned ha hA hnone p
  by_cases hp : pa ++ [na] <+: p
  · rw [prune_find_below hp, pathMap_eq_none, hbelow hp]
  · rw [prune_find_of_not hp]
    exact hO.find (hother hp)

theorem pathMap_graft (hR : Rooted child r) (hO : SameObjs child r obj obj')
    (ha : resolve child r pa = some a) (hb : resolve child r pb = some b)
    (hA : ∀ v n, (v, n) ≠ (a, na) → (v, n) ≠ (b, nb) → child' v n = child v n)
    (hsrc : child a na = some h) (hnone : child' a na = none) (hnew : child' b nb = some h)
    (hloop : ¬ pa ++ [na] <+: pb) :
    pathMap child' obj' r = (pathMap child obj r).graft (pa ++ [na]) (pb ++ [nb]) := by
  obtain ⟨hat, hother⟩ := hR.resolve_moved ha hb hA hsrc hnone hnew hloop
  apply PathMap.ext
  funext p
  by_cases hpb : pb ++ [nb] <+: p
  · obtain ⟨q, rfl⟩ := hpb
    rw [graft_find_append]
    exact hO.find (hat q)
  · by_cases hpa : pa ++ [na] <+: p
    · rw [graft_find_of_src hpb hpa, pathMap_eq_none, (hother p hpb).1 hpa]
    · rw [graft_find_of_not hpb hpa]
      exact hO.find ((hother p hpb).2 hpa)

theorem pathMap_swap (hR : Rooted child r) (hO : SameObjs child r obj obj')
    (ha : resolve child r pa = some a) (hb : resolve child r pb = some b)
    (hA : ∀ v n, (v, n) ≠ (a, na) → (v, n) ≠ (b, nb) → child' v n = child v n) {h' : ℕ}
    (hna : child a na = some h) (hnb : child b nb = some h') (hna' : child' a na = some h')
    (hnb' : child' b nb = some h) (hne : pa ++ [na] ≠ pb ++ [nb]) (hpa : ¬ pa ++ [na] <+: pb)
    (hpb : ¬ pb ++ [nb] <+: pa) :
    pathMap child' obj' r = (pathMap child obj r).swap (pa ++ [na]) (pb ++ [nb]) := by
  obtain ⟨hl, hr, hother⟩ := hR.resolve_swapped ha hb hA hna hnb hna' hnb' hpa hpb
  apply PathMap.ext
  funext p
  by_cases hp : pa ++ [na] <+: p
  · obtain ⟨q, rfl⟩ := hp
    rw [swap_find_left]
    exact hO.find (hl q)
  · by_cases hq : pb ++ [nb] <+: p
    · obtain ⟨q, rfl⟩ := hq
      rw [swap_find_right (not_prefix_append (not_prefix_concat hne hpa)
        (not_prefix_concat hne.symm hpb))]
      exact hO.find (hr q)
    · rw [swap_find_of_not hp hq]
      exact hO.find (hother p hp hq)

end Edits

/-- What is known of the entry that holds a name, for the objects at and below its path. -/
theorem pathMap_dest (obj : ℕ → Obj) {dir : List Name} {p : ℕ} {n : Name}
    (hdir : resolve child r dir = some p)
    (hneg : ∀ h, child p n = some h → (obj h).neg = true) {K : ℕ → Prop}
    (hK : ∀ h, resolve child r (dir ++ [n]) = some h → K h →
      ¬ (pathMap child obj r).HasChild (dir ++ [n])) :
    (∀ o, (pathMap child obj r).find (dir ++ [n]) = some o → o.neg = true) ∧
      ((∀ h ∈ child p n, (obj h).neg = true → K h) →
        ¬ (pathMap child obj r).HasChild (dir ++ [n])) := by
  have hat := resolve_dir hdir n
  refine ⟨fun o ho => ?_, fun hleaf hk => ?_⟩
  · obtain ⟨h, hh, rfl⟩ := pathMap_eq_some.mp ho
    exact hneg h (hat.symm.trans hh)
  · cases hc : child p n with
    | none =>
      obtain ⟨m, hm⟩ := hk
      rw [pathMap_eq_none.mpr (resolve_dir_none (hat.trans hc) m)] at hm
      cases hm
    | some h => exact hK h (hat.trans hc) (hleaf h hc (hneg h hc)) hk

section Lookup

variable {neg : ℕ → Bool} {cur v : ℕ} {n : Name}

def answer (child : ℕ → Name → Option ℕ) (neg : ℕ → Bool) (cur : ℕ) (rest : List Name)
    (res : DcResult) : DcResult :=
  match rest, resolve child cur rest with
  | [], _ => res
  | _ :: _, none => .absent
  | _ :: _, some h => if neg h then .negative else .positive

def through (child : ℕ → Name → Option ℕ) (cur : ℕ) (rest : List Name) : List ℕ :=
  rest.inits.tail.filterMap (resolve child cur)

theorem through_cons_none (rest : List Name) (hn : child cur n = none) :
    through child cur (n :: rest) = [] := by
  simp [through, resolve, hn]

theorem through_cons_some (rest : List Name) (hn : child cur n = some v) :
    through child cur (n :: rest) = v :: through child v rest := by
  have hinits : rest.inits = [] :: rest.inits.tail := by cases rest <;> simp
  simp only [through, inits_cons, tail_cons, filterMap_map]
  rw [hinits]
  simp [resolve, hn, Function.comp_def]

theorem answer_cons_some (rest : List Name) (res : DcResult) (hn : child cur n = some v) :
    answer child neg cur (n :: rest) res =
      answer child neg v rest (if neg v then .negative else .positive) := by
  cases rest with
  | nil => simp [answer, resolve, hn]
  | cons m rest =>
    simp only [answer, resolve, hn, Option.bind_some]
    cases (child v m).bind fun x => resolve child x rest <;> rfl

theorem getLast?_through {h : ℕ} (hne : path ≠ [])
    (hr : resolve child cur path = some h) : (through child cur path).getLast? = some h := by
  induction path generalizing cur with
  | nil => exact absurd rfl hne
  | cons _ rest ih =>
    obtain ⟨v, hv, hr⟩ := Option.bind_eq_some_iff.mp hr
    rw [through_cons_some rest hv]
    cases rest with
    | nil => simpa [through] using hr
    | cons =>
      rw [List.getLast?_cons, ih (by simp) hr]
      rfl

theorem answer_of_resolve {h : ℕ} {res : DcResult} (hne : path ≠ [])
    (hr : resolve child cur path = some h) (hpos : neg h = false) :
    answer child neg cur path res = .positive := by
  cases path with
  | nil => exact absurd rfl hne
  | cons => simp [answer, hr, hpos]

theorem resolve_of_answer {res : DcResult} (hne : path ≠ [])
    (ha : answer child neg cur path res = .positive) :
    ∃ h, resolve child cur path = some h ∧ neg h = false := by
  cases path with
  | nil => exact absurd rfl hne
  | cons n rest =>
    unfold answer at ha
    cases hr : resolve child cur (n :: rest) with
    | none =>
      rw [hr] at ha
      cases ha
    | some h =>
      rw [hr] at ha
      refine ⟨h, rfl, ?_⟩
      by_contra hneg
      simp [hneg] at ha

theorem finds_iff {h : ℕ} {res : DcResult} (hne : path ≠ []) :
    answer child neg cur path res = .positive ∧ (through child cur path).getLast? = some h ↔
      resolve child cur path = some h ∧ neg h = false := by
  constructor
  · rintro ⟨ha, hl⟩
    obtain ⟨h', hr, hpos⟩ := resolve_of_answer hne ha
    obtain rfl : h' = h := Option.some.inj ((getLast?_through hne hr).symm.trans hl)
    exact ⟨hr, hpos⟩
  · rintro ⟨hr, hpos⟩
    exact ⟨answer_of_resolve hne hr hpos, getLast?_through hne hr⟩

theorem pathMap_lookup (path : List Name) (hhost : ∀ h, (obj h).host = h)
    (hneg : ∀ h, (obj h).neg = neg h) : (pathMap child obj r).lookup path =
      (answer child neg r path .positive, through child r path) := by
  have hhosts : (path.inits.tail.filterMap fun p => ((pathMap child obj r).find p).map Obj.host) =
      through child r path := by
    simp [through, pathMap, Function.comp_def, hhost]
  unfold PathMap.lookup
  rw [hhosts]
  cases path with
  | nil => rfl
  | cons n path =>
    simp only [pathMap, answer]
    cases resolve child r (n :: path) with
    | none => rfl
    | some => simp [hneg]

end Lookup

end TrieBenchmark.Serial
