import TrieBenchmark.Listing
import TrieBenchmark.Lib.Run

/-!
The record of the objects that calls make and remove, kept beside an engine whose calls run one
at a time; and what an engine has to keep so that its map holds the objects of the record.
-/

namespace TrieBenchmark.Serial

open PathMap List Run
open Option (some.inj)

variable {Name S A : Type}

def PathMap.hostAt (N : PathMap Name) (path : List Name) : Option ℕ :=
  (N.find path).map Obj.host

section Lookup

variable {P : Type} {act : S → A → Option S} {call step : A} {pc : S → P} {done : Ret → P}
  {s s₀ s' : S} {child : ℕ → Name → Option ℕ} {neg : ℕ → Bool} {r k h : ℕ} {path : List Name}

/-- A lookup that runs to its end by `step` alone finds what the path resolves to. -/
theorem lookup_iff (hinj : Function.Injective done)
    (hstop : ∀ s r, pc s = done r → act s step = none) (hcall : act s call = some s₀)
    (he : exec act s₀ (List.replicate k step) = some s')
    (hpc : pc s' = done (.lookup (answer child neg r path .positive) (through child r path)))
    (hne : path ≠ []) :
    (∃ k s' hosts, exec act s (call :: List.replicate k step) = some s' ∧
      pc s' = done (.lookup .positive hosts) ∧ hosts.getLast? = some h) ↔
        Namei.resolve child r path = some h ∧ neg h = false := by
  rw [← finds_iff hne]
  constructor
  · rintro ⟨k', s'', hosts', he', hpc', hlast⟩
    obtain ⟨s₂, hcall', he'⟩ := Option.bind_eq_some_iff.mp he'
    obtain rfl := some.inj (hcall.symm.trans hcall')
    obtain rfl := exec_replicate_unique he (hstop _ _ hpc) he' (hstop _ _ hpc')
    obtain ⟨hres, rfl⟩ := Ret.lookup.inj (hinj (hpc.symm.trans hpc'))
    exact ⟨hres, hlast⟩
  · rintro ⟨hres, hlast⟩
    refine ⟨k, s', _, ?_, hres ▸ hpc, hlast⟩
    rw [exec, hcall]
    exact he

end Lookup

def subject : Call Name → Option (List Name)
  | .op (.instantiate path _) => some path
  | .op (.delete path) => some path
  | .op (.unlink path) => some path
  | _ => none

/-- A register holds the id of each object that was added or instantiated and not removed since. -/
def write (L : ℕ → Option ℕ) (h v : Option ℕ) : ℕ → Option ℕ :=
  h.elim L fun h => Function.update L h v

/-- The register after a call that returned 0: `h` is the object its subject named when it was
made, and `N` the map that it leaves. -/
def enter (c : Call Name) (h : Option ℕ) (N : PathMap Name) (L : ℕ → Option ℕ) : ℕ → Option ℕ :=
  match c with
  | .op (.addTyped path id _ true) => write L (N.hostAt path) (some id)
  | .op (.instantiate _ id) => write L h (some id)
  | .op (.delete _) => write L h none
  | .op (.unlink _) => write L h none
  | .evict a => write L (some a) none
  | _ => L

structure Engine (S A Name : Type) where
  act : S → A → Option S
  /-- The call that an action makes. -/
  call : A → Option (Call Name)
  names : S → PathMap Name
  /-- The thread of the action has returned 0. -/
  returned : S → A → Bool

structure Ledger (S Name : Type) where
  s : S
  call : Option (Call Name)
  found : Option ℕ
  reg : ℕ → Option ℕ

def Ledger.blank (s : S) : Ledger S Name :=
  ⟨s, none, none, fun _ => none⟩

def Engine.record (E : Engine S A Name) (l : Ledger S Name) (a : A) : Option (Ledger S Name) :=
  (E.act l.s a).map fun s' =>
    match E.call a with
    | some c => ⟨s', some c, (subject c).bind (E.names l.s).hostAt, l.reg⟩
    | none => ⟨s', l.call, l.found,
        match l.call with
        | some c => if E.returned s' a then enter c l.found (E.names s') l.reg else l.reg
        | none => l.reg⟩

structure Proper (fresh : ℕ) (N : PathMap Name) : Prop where
  inj : ∀ p q o o', N.find p = some o → N.find q = some o' → o.host = o'.host → p = q
  lt : ∀ p o, N.find p = some o → o.host < fresh
  closed : ∀ p q, N.find p = none → N.find (p ++ q) = none

theorem pathMap_proper {child : ℕ → Name → Option ℕ} {obj : ℕ → Obj} {r fresh : ℕ}
    (hR : Namei.Rooted child r) (hhost : ∀ h, (obj h).host = h)
    (hlt : ∀ p h, Namei.resolve child r p = some h → h < fresh) :
    Proper fresh (pathMap child obj r) := by
  constructor
  · intro p q o o' ho ho' he
    obtain ⟨h, hp, rfl⟩ := pathMap_eq_some.mp ho
    obtain ⟨h', hq, rfl⟩ := pathMap_eq_some.mp ho'
    rw [hhost, hhost] at he
    exact hR.resolve_inj hp (he ▸ hq)
  · intro p o ho
    obtain ⟨h, hp, rfl⟩ := pathMap_eq_some.mp ho
    rw [hhost]
    exact hlt p h hp
  · intro p q hp
    rw [pathMap_eq_none] at hp ⊢
    rw [Namei.resolve_append, hp, Option.bind_none]

/-- What a step of the call `c` does to the map, and whether the call returns 0 with it. `K` says
that a negative which a rename drops has nothing below it. -/
inductive Turn (K : Prop) (fresh : ℕ) (N : PathMap Name) : Call Name → Bool → PathMap Name → Prop where
  | still {c : Call Name} {b : Bool} (hb : b = true → ∀ h N L, enter c h N L = L) : Turn K fresh N c b N
  | add {path : List Name} {id : ℕ} {isdir positive : Bool} (hne : path ≠ [])
      (hfree : N.find path = none) : Turn K fresh N (.op (.addTyped path id isdir positive)) true
        (N.bind path ⟨fresh, isdir, !positive, id⟩)
  | ident {path : List Name} {id : ℕ} {o : Obj} (ho : N.find path = some o) (hneg : o.neg = true) :
      Turn K fresh N (.op (.instantiate path id)) false (N.bind path { o with id := id })
  | instantiate {path : List Name} {id : ℕ} {o : Obj} (hne : path ≠ [])
      (ho : N.find path = some o) : Turn K fresh N (.op (.instantiate path id)) true
        (N.bind path { o with neg := false, id := id })
  | delete {path : List Name} {o : Obj} (ho : N.find path = some o) :
      Turn K fresh N (.op (.delete path)) true (N.bind path { o with neg := true })
  | unlink {path : List Name} {o : Obj} (ho : N.find path = some o) (hleaf : ¬ N.HasChild path) :
      Turn K fresh N (.op (.unlink path)) true (N.prune path)
  | evict {path : List Name} {o : Obj} (ho : N.find path = some o) (hleaf : ¬ N.HasChild path) :
      Turn K fresh N (.evict o.host) true (N.prune path)
  | lost {a : ℕ} (ha : ∀ p o, N.find p = some o → o.host ≠ a) : Turn K fresh N (.evict a) true N
  | drop {src dst : List Name} (hneg : ∀ o, N.find dst = some o → o.neg = true)
      (hleaf : K → ¬ N.HasChild dst) : Turn K fresh N (.op (.rename src dst)) false (N.prune dst)
  | rename {src dst : List Name} {b : Bool} (hne : src ≠ []) (hsrc : (N.find src).isSome = true)
      (hloop : ¬ src <+: dst) (hneg : ∀ o, N.find dst = some o → o.neg = true)
      (hleaf : K → ¬ N.HasChild dst) :
      Turn K fresh N (.op (.rename src dst)) b (N.graft src dst)
  | exchange {x y : List Name} {b : Bool} (hx : x ≠ []) (hy : y ≠ []) (hxy : ¬ x <+: y)
      (hyx : ¬ y <+: x) : Turn K fresh N (.op (.exchange x y)) b (N.swap x y)

theorem Turn.quiet {K : Prop} {fresh : ℕ} {N : PathMap Name} {c : Call Name} :
    Turn K fresh N c false N := .still nofun

def Recorded (N : PathMap Name) (L : ℕ → Option ℕ) : Prop :=
  ∀ p o, p ≠ [] → N.find p = some o → o.neg = false → L o.host = some o.id

def Kept (N : PathMap Name) (L : ℕ → Option ℕ) : Prop :=
  ∀ h id, L h = some id → ∃ p o, p ≠ [] ∧ N.find p = some o ∧ o.neg = false ∧ o.host = h ∧ o.id = id

section Write

variable {L : ℕ → Option ℕ} {h k : ℕ} {v : Option ℕ}

@[simp] theorem write_self : write L (some h) v h = v := by
  simp [write]

theorem write_of_ne (hne : k ≠ h) : write L (some h) v k = L k := by
  simp [write, hne]

end Write

namespace Turn

variable {K : Prop} {fresh : ℕ} {N N' : PathMap Name} {c : Call Name} {b : Bool} {L : ℕ → Option ℕ}
  {h : Option ℕ} {path : List Name}

theorem host_ne (hN : Proper fresh N) {p q : List Name} {o o' : Obj} (ho : N.find p = some o)
    (ho' : N.find q = some o') (hne : p ≠ q) : o.host ≠ o'.host :=
  fun he => hne (hN.inj p q o o' ho ho' he)

theorem recorded (hT : Turn K fresh N c b N') (hN : Proper fresh N)
    (hsub : ∀ path, subject c = some path → h = N.hostAt path) (hR : Recorded N L) :
    Recorded N' (if b then enter c h N' L else L) := by
  intro p o hp ho hpos
  cases hT with
  | still hb =>
    cases b with
    | false => exact hR p o hp ho hpos
    | true =>
      rw [if_pos rfl, hb rfl]
      exact hR p o hp ho hpos
  | @add path _ _ positive =>
    rcases find_of_bind ho with ⟨rfl, rfl⟩ | ⟨-, ho'⟩
    · obtain rfl : positive = true := by simpa using hpos
      simp [enter, PathMap.hostAt]
    · have hold := hR p o hp ho' hpos
      cases positive with
      | false => exact hold
      | true =>
        simp only [enter, PathMap.hostAt, bind_find_self, Option.map_some, if_true]
        rw [write_of_ne (Nat.ne_of_lt (hN.lt p o ho')), hold]
  | @ident path _ _ _ hneg =>
    rcases find_of_bind ho with ⟨rfl, rfl⟩ | ⟨he, ho⟩
    · rw [hneg] at hpos
      cases hpos
    · exact hR p o hp ho hpos
  | @instantiate path _ o' _ ho' =>
    obtain rfl : h = some o'.host := by simpa [PathMap.hostAt, ho'] using hsub path rfl
    rcases find_of_bind ho with ⟨rfl, rfl⟩ | ⟨he, ho⟩
    · simp [enter]
    · simp only [enter, if_true]
      rw [write_of_ne (host_ne hN ho ho' he), hR p o hp ho hpos]
  | @delete path o' ho' =>
    obtain rfl : h = some o'.host := by simpa [PathMap.hostAt, ho'] using hsub path rfl
    rcases find_of_bind ho with ⟨rfl, rfl⟩ | ⟨he, ho⟩
    · cases hpos
    · simp only [enter, if_true]
      rw [write_of_ne (host_ne hN ho ho' he), hR p o hp ho hpos]
  | @unlink path o' ho' =>
    obtain rfl : h = some o'.host := by simpa [PathMap.hostAt, ho'] using hsub path rfl
    obtain ⟨he, ho⟩ := find_of_prune ho
    simp only [enter, if_true]
    rw [write_of_ne (host_ne hN ho ho' fun hq => he (hq ▸ prefix_refl _)), hR p o hp ho hpos]
  | @evict path _ ho' =>
    obtain ⟨he, ho⟩ := find_of_prune ho
    simp only [enter, if_true]
    rw [write_of_ne (host_ne hN ho ho' fun hq => he (hq ▸ prefix_refl _)), hR p o hp ho hpos]
  | @lost _ ha =>
    simp only [enter, if_true]
    rw [write_of_ne (ha p o ho), hR p o hp ho hpos]
  | drop => exact hR p o hp (find_of_prune ho).2 hpos
  | @rename src dst _ hne =>
    simp only [enter, ite_self]
    by_cases hd : dst <+: p
    · obtain ⟨q, rfl⟩ := hd
      rw [graft_find_append] at ho
      exact hR (src ++ q) o (by simp [hne]) ho hpos
    · by_cases hs : src <+: p
      · rw [graft_find_of_src hd hs] at ho
        cases ho
      · rw [graft_find_of_not hd hs] at ho
        exact hR p o hp ho hpos
  | @exchange x y _ hx hy hxy hyx =>
    simp only [enter, ite_self]
    by_cases hpx : x <+: p
    · obtain ⟨q, rfl⟩ := hpx
      rw [swap_find_left] at ho
      exact hR (y ++ q) o (by simp [hy]) ho hpos
    · by_cases hpy : y <+: p
      · obtain ⟨q, rfl⟩ := hpy
        rw [swap_find_right (not_prefix_append hxy hyx)] at ho
        exact hR (x ++ q) o (by simp [hx]) ho hpos
      · rw [swap_find_of_not hpx hpy] at ho
        exact hR p o hp ho hpos

theorem eq_of_prefix (hN : Proper fresh N) {path p : List Name} {o : Obj} (hleaf : ¬ N.HasChild path)
    (hp : path <+: p) (ho : N.find p = some o) : p = path := by
  obtain ⟨q, rfl⟩ := hp
  cases q with
  | nil => simp
  | cons n q =>
    refine absurd ⟨n, ?_⟩ hleaf
    by_contra hno
    have hnone := hN.closed (path ++ [n]) q (by simpa using hno)
    rw [append_assoc, singleton_append, ho] at hnone
    cases hnone

theorem pruned (hN : Proper fresh N) {o' : Obj} {k i : ℕ}
    (ho' : N.find path = some o') (hleaf : ¬ N.HasChild path) (hL : Kept N L)
    (hki : write L (some o'.host) none k = some i) : ∃ p o, p ≠ [] ∧
      (N.prune path).find p = some o ∧ o.neg = false ∧ o.host = k ∧ o.id = i := by
  rcases eq_or_ne k o'.host with rfl | hk
  · rw [write_self] at hki
    cases hki
  · rw [write_of_ne hk] at hki
    obtain ⟨p, o, hp, ho, hpos, hhost, hid⟩ := hL k i hki
    refine ⟨p, o, hp, ?_, hpos, hhost, hid⟩
    rw [prune_find_of_not fun he => ?_, ho]
    obtain rfl := eq_of_prefix hN hleaf he ho
    rw [ho'] at ho
    obtain rfl := some.inj ho
    exact hk hhost.symm

theorem rebound {o' o'' : Obj} {k i : ℕ} (ho' : N.find path = some o')
    (hk : k ≠ o'.host) (hL : Kept N L) (hki : L k = some i) : ∃ p o, p ≠ [] ∧
      (N.bind path o'').find p = some o ∧ o.neg = false ∧ o.host = k ∧ o.id = i := by
  obtain ⟨p, o, hp, ho, hpos, hhost, hid⟩ := hL k i hki
  refine ⟨p, o, hp, ?_, hpos, hhost, hid⟩
  rw [bind_find_of_ne fun he => ?_, ho]
  rw [he, ho'] at ho
  obtain rfl := some.inj ho
  exact hk hhost.symm

theorem kept (hT : Turn K fresh N c b N') (hN : Proper fresh N)
    (hsub : ∀ path, subject c = some path → h = N.hostAt path) (hK : K) (hL : Kept N L) :
    Kept N' (if b then enter c h N' L else L) := by
  intro k i hki
  cases hT with
  | still hb =>
    cases b with
    | false => exact hL k i hki
    | true =>
      rw [if_pos rfl, hb rfl] at hki
      exact hL k i hki
  | @add path id isdir positive hne hfree =>
    have hother : L k = some i → ∃ p o, p ≠ [] ∧
        (N.bind path ⟨fresh, isdir, !positive, id⟩).find p = some o ∧ o.neg = false ∧
        o.host = k ∧ o.id = i := by
      intro hki
      obtain ⟨p, o, hp, ho, hrest⟩ := hL k i hki
      refine ⟨p, o, hp, ?_, hrest⟩
      rw [bind_find_of_ne fun he => ?_, ho]
      rw [he, hfree] at ho
      cases ho
    cases positive with
    | false => exact hother hki
    | true =>
      simp only [enter, PathMap.hostAt, bind_find_self, Option.map_some, if_true] at hki
      rcases eq_or_ne k fresh with rfl | hk
      · rw [write_self] at hki
        obtain rfl := some.inj hki
        exact ⟨path, _, hne, bind_find_self, rfl, rfl, rfl⟩
      · rw [write_of_ne hk] at hki
        exact hother hki
  | @ident _ _ _ ho' hneg =>
    obtain ⟨p, o, hp, ho, hpos, hrest⟩ := hL k i hki
    refine ⟨p, o, hp, ?_, hpos, hrest⟩
    rw [bind_find_of_ne fun he => ?_, ho]
    rw [he, ho'] at ho
    obtain rfl := some.inj ho
    rw [hneg] at hpos
    cases hpos
  | @instantiate path _ o' hne ho' =>
    obtain rfl : h = some o'.host := by simpa [PathMap.hostAt, ho'] using hsub path rfl
    simp only [enter, if_true] at hki
    rcases eq_or_ne k o'.host with rfl | hk
    · rw [write_self] at hki
      obtain rfl := some.inj hki
      exact ⟨path, _, hne, bind_find_self, rfl, rfl, rfl⟩
    · rw [write_of_ne hk] at hki
      exact rebound ho' hk hL hki
  | @delete path o' ho' =>
    obtain rfl : h = some o'.host := by simpa [PathMap.hostAt, ho'] using hsub path rfl
    simp only [enter, if_true] at hki
    rcases eq_or_ne k o'.host with rfl | hk
    · rw [write_self] at hki
      cases hki
    · rw [write_of_ne hk] at hki
      exact rebound ho' hk hL hki
  | @unlink path o' ho' hleaf =>
    obtain rfl : h = some o'.host := by simpa [PathMap.hostAt, ho'] using hsub path rfl
    simp only [enter, if_true] at hki
    exact pruned hN ho' hleaf hL hki
  | @evict _ _ ho' hleaf =>
    simp only [enter, if_true] at hki
    exact pruned hN ho' hleaf hL hki
  | @lost a =>
    simp only [enter, if_true] at hki
    rcases eq_or_ne k a with rfl | hk
    · rw [write_self] at hki
      cases hki
    · rw [write_of_ne hk] at hki
      exact hL k i hki
  | @drop _ _ hneg hleaf =>
    obtain ⟨p, o, hp, ho, hpos, hrest⟩ := hL k i hki
    refine ⟨p, o, hp, ?_, hpos, hrest⟩
    rw [prune_find_of_not fun hd => ?_, ho]
    obtain rfl := eq_of_prefix hN (hleaf hK) hd ho
    rw [hneg o ho] at hpos
    cases hpos
  | @rename src dst _ _ _ _ hneg hleaf =>
    simp only [enter, ite_self] at hki
    obtain ⟨p, o, hp, ho, hpos, hrest⟩ := hL k i hki
    have hd : ¬ dst <+: p := by
      intro hd
      obtain rfl := eq_of_prefix hN (hleaf hK) hd ho
      rw [hneg o ho] at hpos
      cases hpos
    by_cases hs : src <+: p
    · obtain ⟨q, rfl⟩ := hs
      have hdst : dst ≠ [] := by
        rintro rfl
        exact hd nil_prefix
      exact ⟨dst ++ q, o, by simp [hdst], by rw [graft_find_append, ho], hpos, hrest⟩
    · exact ⟨p, o, hp, by rw [graft_find_of_not hd hs, ho], hpos, hrest⟩
  | @exchange x y _ hx hy hxy hyx =>
    simp only [enter, ite_self] at hki
    obtain ⟨p, o, hp, ho, hrest⟩ := hL k i hki
    by_cases hpx : x <+: p
    · obtain ⟨q, rfl⟩ := hpx
      exact ⟨y ++ q, o, by simp [hy], by rw [swap_find_right (not_prefix_append hxy hyx), ho], hrest⟩
    · by_cases hpy : y <+: p
      · obtain ⟨q, rfl⟩ := hpy
        exact ⟨x ++ q, o, by simp [hx], by rw [swap_find_left, ho], hrest⟩
      · exact ⟨p, o, hp, by rw [swap_find_of_not hpx hpy, ho], hrest⟩

theorem hostAt_eq (hT : Turn K fresh N c false N')
    (hsub : subject c = some path) : N'.hostAt path = N.hostAt path := by
  cases hT with
  | still => rfl
  | @ident p _ _ ho =>
    obtain rfl : p = path := by simpa [subject] using hsub
    simp [PathMap.hostAt, ho]
  | _ => cases hsub

end Turn

/-- An action that makes no call is a turn of the call under way, or comes once that call has
told the record what it returns. -/
def Engine.Proceeds (E : Engine S A Name) (live : S → Prop) (K : Prop) (fresh : ℕ)
    (c₀ : Option (Call Name)) (s : S) (a : A) (s' : S) : Prop :=
  (live s ∧ (E.returned s' a = true → ¬ live s') ∧ ∃ c, c₀ = some c ∧
    Turn K fresh (E.names s) c (E.returned s' a) (E.names s')) ∨
  (¬ live s' ∧ E.returned s' a = false ∧ E.names s' = E.names s)

/-- One client of an engine: `P` holds between its actions, with the call under way, and each
action is a call or goes on with that call. -/
structure Engine.Solo (E : Engine S A Name) (P : S → Option (Call Name) → Prop) (live : S → Prop)
    (fresh : S → ℕ) (ok K : S → A → Prop) : Prop where
  proper : ∀ s c, P s c → Proper (fresh s) (E.names s)
  start : ∀ s c₀ a c s', P s c₀ → ok s a → E.call a = some c → E.act s a = some s' →
    P s' (some c) ∧ E.names s' = E.names s
  step : ∀ s c₀ a s', P s c₀ → ok s a → E.call a = none → E.act s a = some s' →
    P s' c₀ ∧ E.Proceeds live (K s a) (fresh s) c₀ s a s'

/-- `inv` holds, the call under way aims at what it was made for, and without one no thread is
live. -/
structure Serving (inv : S → Prop) (aims : S → Call Name → Prop) (live : S → Prop) (s : S)
    (c : Option (Call Name)) : Prop where
  inv : inv s
  aims : ∀ k, c = some k → aims s k
  rest : c = none → ¬ live s

namespace Engine

variable {E : Engine S A Name} {P : S → Option (Call Name) → Prop} {live : S → Prop} {fresh : S → ℕ}
  {ok K : S → A → Prop} {l l' : Ledger S Name} {a : A} {s₀ : S}

theorem solo_serving {inv : S → Prop} {aims : S → Call Name → Prop}
    (hproper : ∀ s, inv s → Proper (fresh s) (E.names s))
    (hcall : ∀ s a c s', inv s → ok s a → E.call a = some c → E.act s a = some s' →
      inv s' ∧ aims s' c ∧ E.names s' = E.names s)
    (hstep : ∀ s a s', inv s → ok s a → E.call a = none → E.act s a = some s' →
      live s ∧ (E.returned s' a = true → ¬ live s') ∧ ∀ c, aims s c → inv s' ∧ aims s' c ∧
        Turn (K s a) (fresh s) (E.names s) c (E.returned s' a) (E.names s')) :
    E.Solo (Serving inv aims live) live fresh ok K := by
  refine ⟨fun s c hs => hproper s hs.inv, ?_, ?_⟩
  · intro s c₀ a c s' hs hok hc ha
    obtain ⟨hinv, haims, hN⟩ := hcall s a c s' hs.inv hok hc ha
    refine ⟨⟨hinv, fun k hk => ?_, by simp⟩, hN⟩
    obtain rfl := some.inj hk
    exact haims
  · intro s c₀ a s' hs hok hc ha
    obtain ⟨hlive, hend, hgo⟩ := hstep s a s' hs.inv hok hc ha
    cases c₀ with
    | none => exact absurd hlive (hs.rest rfl)
    | some c =>
      obtain ⟨hinv, haims, hT⟩ := hgo c (hs.aims c rfl)
      refine ⟨⟨hinv, fun k hk => ?_, by simp⟩, .inl ⟨hlive, hend, c, rfl, hT⟩⟩
      obtain rfl := some.inj hk
      exact haims

structure Follows (E : Engine S A Name) (P : S → Option (Call Name) → Prop) (live : S → Prop)
    (l : Ledger S Name) : Prop where
  run : P l.s l.call
  found : live l.s → ∀ c path, l.call = some c → subject c = some path →
    l.found = (E.names l.s).hostAt path
  recorded : Recorded (E.names l.s) l.reg

theorem Solo.record (hS : E.Solo P live fresh ok K) (hF : E.Follows P live l) (hok : ok l.s a)
    (ha : E.record l a = some l') : E.Follows P live l' ∧
      (K l.s a → Kept (E.names l.s) l.reg → Kept (E.names l'.s) l'.reg) := by
  obtain ⟨s', hs, rfl⟩ := Option.map_eq_some_iff.mp ha
  cases hc : E.call a with
  | some c =>
    obtain ⟨hP, hN⟩ := hS.start _ _ _ c _ hF.run hok hc hs
    refine ⟨⟨hP, fun _ c' path hc' hsub => ?_, ?_⟩, fun _ hk => ?_⟩
    · obtain rfl := some.inj hc'
      show (subject c).bind (E.names l.s).hostAt = _
      rw [hsub, hN]
      rfl
    · show Recorded (E.names s') l.reg
      rw [hN]
      exact hF.recorded
    · show Kept (E.names s') l.reg
      rw [hN]
      exact hk
  | none =>
    obtain ⟨hP, ⟨hlive, hend, c, hcall, hT⟩ | ⟨hdead, hb, hN'⟩⟩ := hS.step _ _ _ _ hF.run hok hc hs
    · have hN := hS.proper _ _ hF.run
      have hsub : ∀ path, subject c = some path → l.found = (E.names l.s).hostAt path :=
        fun path => hF.found hlive c path hcall
      refine ⟨⟨hP, fun hlive' c' path hc' hp => ?_, ?_⟩, fun hK hk => ?_⟩
      · obtain rfl : c = c' := some.inj (hcall.symm.trans hc')
        have hb : E.returned s' a = false := by
          by_contra hb
          exact hend (by simpa using hb) hlive'
        rw [hb] at hT
        exact (hsub path hp).trans (hT.hostAt_eq hp).symm
      · simp only [hcall]
        exact hT.recorded hN hsub hF.recorded
      · simp only [hcall]
        exact hT.kept hN hsub hK hk
    · have hreg : (match l.call with
          | some c => if E.returned s' a then enter c l.found (E.names s') l.reg else l.reg
          | none => l.reg) = l.reg := by
        rw [hb]
        cases l.call <;> rfl
      refine ⟨⟨hP, fun hlive => absurd hlive hdead, ?_⟩, fun _ hk => ?_⟩
      · show Recorded (E.names s') _
        rw [hreg, hN']
        exact hF.recorded
      · show Kept (E.names s') _
        rw [hreg, hN']
        exact hk

theorem Solo.follows (hS : E.Solo P live fresh ok K) (h₀ : P s₀ none)
    (hnew : ∀ p, p ≠ [] → (E.names s₀).find p = none)
    (hr : Reach E.record (fun l a => ok l.s a) (.blank s₀) l) : E.Follows P live l := by
  refine hr.invariant ⟨h₀, fun _ _ _ hc => (by cases hc), fun p o hp ho => ?_⟩
    fun _ _ _ hF hok ha => (hS.record hF hok ha).1
  rw [show (Ledger.blank s₀ : Ledger S Name).s = s₀ from rfl, hnew p hp] at ho
  cases ho

theorem Solo.kept (hS : E.Solo P live fresh ok K) (h₀ : P s₀ none)
    (hnew : ∀ p, p ≠ [] → (E.names s₀).find p = none)
    (hr : Reach E.record (fun l a => ok l.s a ∧ K l.s a) (.blank s₀) l) :
    Kept (E.names l.s) l.reg := by
  have hboth : E.Follows P live l ∧ Kept (E.names l.s) l.reg := by
    refine hr.invariant (P := fun l => E.Follows P live l ∧ Kept (E.names l.s) l.reg)
      ⟨hS.follows h₀ hnew .start, fun _ _ h => (by cases h)⟩ ?_
    intro l a l' ⟨hF, hk⟩ hok ha
    obtain ⟨hF', hk'⟩ := hS.record hF hok.1 ha
    exact ⟨hF', hk' hok.2 hk⟩
  exact hboth.2

end Engine

section Reports

open Namei

variable {L : ℕ → Option ℕ} {T : Tree Name} {r : ℕ} {finds : List Name → ℕ → Prop}

/-- The reports and the lookups of a state read one tree. -/
structure Shows (T : Tree Name) (r : ℕ) (finds : List Name → ℕ → Prop) : Prop where
  listed : T.Listed
  nodup : ∀ h, (T.kids h).Nodup
  rooted : Rooted T.child r
  root : T.parent r = r
  host : ∀ h, (T.obj h).host = h
  finds : ∀ p h, p ≠ [] → (finds p h ↔ resolve T.child r p = some h ∧ (T.obj h).neg = false)

/-- A walk visits the objects of the register, each once, with its id, at a path that `finds` it. -/
def Accounts (walk : List (ℕ × List Name)) (L : ℕ → Option ℕ) (finds : List Name → ℕ → Prop) :
    Prop :=
  ∃ vs : List (ℕ × ℕ × List Name), walk = vs.map Prod.snd ∧ (vs.map Prod.fst).Nodup ∧
    (∀ v ∈ vs, L v.1 = some v.2.1 ∧ finds v.2.2 v.1) ∧
    ∀ h, (L h).isSome = true → h ∈ vs.map Prod.fst

theorem Accounts.visited {walk : List (ℕ × List Name)}
    (hA : Accounts walk L finds) {h i : ℕ} (hi : L h = some i) : ∃ p, (i, p) ∈ walk := by
  obtain ⟨vs, rfl, -, hv, hall⟩ := hA
  obtain ⟨⟨c, j, p⟩, hmem, rfl⟩ := mem_map.mp (hall h (by rw [hi]; rfl))
  obtain rfl : j = i := some.inj ((hv _ hmem).1.symm.trans hi)
  exact ⟨p, mem_map_of_mem hmem⟩

theorem Shows.accounts (hS : Shows T r finds)
    (hrec : Recorded (pathMap T.child T.obj r) L) (hkept : Kept (pathMap T.child T.obj r) L)
    (hshallow : ∀ p h, resolve T.child r p = some h → p.length ≤ pathMax) :
    Accounts (T.walk r) L finds := by
  obtain ⟨hT, hnd, hR, hr, hhost, hfinds⟩ := hS
  have hvisit : ∀ c i p, (c, i, p) ∈ T.visits pathMax r [] → p ≠ [] ∧ resolve T.child r p = some c ∧
      (T.obj c).neg = false ∧ (T.obj c).id = i := by
    intro c i p hv
    obtain ⟨q, rfl, hq, hv⟩ := hT.of_mem_visits hv
    obtain ⟨-, hne, hneg, hid⟩ := Tree.mem_visit.mp hv
    refine ⟨?_, hq, hneg, hid⟩
    rintro rfl
    -- the root is its own parent
    obtain rfl : r = c := some.inj hq
    exact hne.elim (absurd rfl) (absurd hr)
  refine ⟨T.visits pathMax r [], T.walkRec_eq .., ?_, ?_, ?_⟩
  · refine ((hT.visits_nodup hnd pathMax r []).of_map _).map_on ?_
    rintro ⟨c, i, p⟩ hv ⟨c', i', p'⟩ hv' he
    obtain rfl : c = c' := he
    obtain ⟨-, hp, -, hi⟩ := hvisit _ _ _ hv
    obtain ⟨-, hp', -, hi'⟩ := hvisit _ _ _ hv'
    rw [hR.resolve_inj hp hp', ← hi, hi']
  · rintro ⟨c, i, p⟩ hv
    obtain ⟨hne, hp, hneg, rfl⟩ := hvisit _ _ _ hv
    have hL := hrec p (T.obj c) hne (pathMap_eq_some.mpr ⟨c, hp, rfl⟩) hneg
    rw [hhost] at hL
    exact ⟨hL, (hfinds p c hne).mpr ⟨hp, hneg⟩⟩
  · intro h hh
    obtain ⟨i, hi⟩ := Option.isSome_iff_exists.mp hh
    obtain ⟨p, o, hne, ho, hneg, hoh, hid⟩ := hkept h i hi
    obtain ⟨c, hp, rfl⟩ := pathMap_eq_some.mp ho
    rw [hhost] at hoh
    subst hoh
    have hmem : (i, p) ∈ T.walkRec pathMax r [] :=
      hT.mem_walkRec.mpr ⟨p, c, rfl, hshallow p c hp, hp, Tree.mem_visit.mpr ⟨rfl, .inl hne, hneg, hid⟩⟩
    rw [T.walkRec_eq] at hmem
    obtain ⟨⟨c', w⟩, hv, hw⟩ := mem_map.mp hmem
    obtain rfl : w = (i, p) := hw
    obtain ⟨-, hp', -, -⟩ := hvisit _ _ _ hv
    obtain rfl : c = c' := some.inj (hp.symm.trans hp')
    exact mem_map_of_mem hv

/-- A listing returns the number of its children, and they are those that `finds` below the path,
each once and with its id in the register. -/
def Lists (report : Option (ℕ × List (ℕ × Name))) (L : ℕ → Option ℕ) (finds : List Name → ℕ → Prop)
    (path : List Name) : Prop :=
  ∃ es, report = some (es.length, es) ∧ (es.map Prod.snd).Nodup ∧
    ∀ n i, (i, n) ∈ es ↔ ∃ h, finds (path ++ [n]) h ∧ L h = some i

/-- A listing is right where no name of the directory is held by a negative, and nowhere else. -/
theorem Shows.lists_iff (hS : Shows T r finds) (hrec : Recorded (pathMap T.child T.obj r) L)
    {dir : ℕ} (hr : resolve T.child r path = some dir) : Lists (T.readdirCount r path) L finds path ↔
      ∀ n h, resolve T.child r (path ++ [n]) = some h → (T.obj h).neg = false := by
  obtain ⟨hT, hnd, -, -, hhost, hfinds⟩ := hS
  have hat : ∀ n, resolve T.child r (path ++ [n]) = T.child dir n := by
    intro n
    rw [resolve_concat, hr, Option.bind_some]
  have hlist : T.readdirCount r path = some (((T.kids dir).map fun c => ((T.obj c.1).id, c.2)).length,
      (T.kids dir).map fun c => ((T.obj c.1).id, c.2)) := by
    rw [T.readdirCount_eq, Tree.readdir, hr]
    rfl
  constructor
  · rintro ⟨es, hes, -, hmem⟩ n h hh
    obtain rfl := (Prod.mk.inj (some.inj (hlist.symm.trans hes))).2
    have hkid := (hT dir h n).mpr ((hat n).symm.trans hh)
    obtain ⟨h', hf, -⟩ := (hmem n (T.obj h).id).mp (mem_map.mpr ⟨(h, n), hkid, rfl⟩)
    obtain ⟨hh', hneg⟩ := (hfinds _ h' (by simp)).mp hf
    obtain rfl := some.inj (hh.symm.trans hh')
    exact hneg
  intro hpos
  refine ⟨(T.kids dir).map fun c => ((T.obj c.1).id, c.2), hlist, ?_, fun n i => ?_⟩
  · rw [map_map]
    refine (hnd dir).map_on ?_
    rintro ⟨c, n⟩ hc ⟨c', n'⟩ hc' he
    obtain rfl : n = n' := he
    rw [hT] at hc hc'
    rw [some.inj (hc.symm.trans hc')]
  · simp only [mem_map, Prod.mk.injEq]
    constructor
    · rintro ⟨⟨c, m⟩, hc, rfl, rfl⟩
      have hres := (hat m).trans ((hT dir c m).mp hc)
      have hneg := hpos m c hres
      refine ⟨c, (hfinds _ c (by simp)).mpr ⟨hres, hneg⟩, ?_⟩
      have hL := hrec _ (T.obj c) (by simp) (pathMap_eq_some.mpr ⟨c, hres, rfl⟩) hneg
      rwa [hhost] at hL
    · rintro ⟨h, hf, hL⟩
      obtain ⟨hres, hneg⟩ := (hfinds _ h (by simp)).mp hf
      have hid := hrec _ (T.obj h) (by simp) (pathMap_eq_some.mpr ⟨h, hres, rfl⟩) hneg
      rw [hhost, hL] at hid
      exact ⟨(h, n), (hT dir h n).mpr ((hat n).symm.trans hres), (some.inj hid).symm, rfl⟩

/-- A client of an engine from its first state on, whose reports and lookups read one tree
whenever it is at rest. -/
structure Engine.Client (E : Engine S A Name) (P : S → Option (Call Name) → Prop) (live : S → Prop)
    (fresh : S → ℕ) (ok K : S → A → Prop) (s₀ : S) (tree : S → Tree Name) (r : ℕ)
    (rest : S → Prop) (finds : S → List Name → ℕ → Prop) : Prop where
  solo : E.Solo P live fresh ok K
  start : P s₀ none
  empty : ∀ p, p ≠ [] → (E.names s₀).find p = none
  names : ∀ s, E.names s = pathMap (tree s).child (tree s).obj r
  shows : ∀ s c, P s c → rest s → Shows (tree s) r (finds s)

namespace Engine.Client

variable {E : Engine S A Name} {P : S → Option (Call Name) → Prop} {live rest : S → Prop}
  {fresh : S → ℕ} {ok K : S → A → Prop} {s₀ : S} {tree : S → Tree Name}
  {finds : S → List Name → ℕ → Prop} {l : Ledger S Name}

theorem follows (hC : E.Client P live fresh ok K s₀ tree r rest finds)
    (hr : Reach E.record (fun l a => ok l.s a) (.blank s₀) l) : E.Follows P live l :=
  hC.solo.follows hC.start hC.empty hr

theorem length_lt (hC : E.Client P live fresh ok K s₀ tree r rest finds)
    (hr : Reach E.record (fun l a => ok l.s a) (.blank s₀) l) (hrest : rest l.s) {p : List Name}
    {h : ℕ} (hp : resolve (tree l.s).child r p = some h) : p.length < fresh l.s := by
  have hF := hC.follows hr
  have hS := hC.shows _ _ hF.run hrest
  refine hS.rooted.length_lt (fun q c hq => ?_) hp
  have hlt := (hC.solo.proper _ _ hF.run).lt q _
    (by rw [hC.names]; exact pathMap_eq_some.mpr ⟨c, hq, rfl⟩)
  rwa [hS.host] at hlt

/-- In a run in which no rename replaces a negative with children, a walk that has room for
every path accounts for the record. -/
theorem accounts (hC : E.Client P live fresh ok K s₀ tree r rest finds)
    (hr : Reach E.record (fun l a => ok l.s a ∧ K l.s a) (.blank s₀) l) (hrest : rest l.s)
    (hshallow : ∀ p h, resolve (tree l.s).child r p = some h → p.length ≤ pathMax) :
    Accounts ((tree l.s).walk r) l.reg (finds l.s) := by
  have hF := hC.follows (hr.mono fun _ _ h => h.1)
  have hkept := hC.solo.kept hC.start hC.empty hr
  have hrec := hF.recorded
  rw [hC.names] at hkept hrec
  exact (hC.shows _ _ hF.run hrest).accounts hrec hkept hshallow

theorem positive_of_kids (hC : E.Client P live fresh ok K s₀ tree r rest finds)
    (hr : Reach E.record (fun l a => ok l.s a) (.blank s₀) l) (hrest : rest l.s)
    {path : List Name} {dir : ℕ} (hdir : resolve (tree l.s).child r path = some dir)
    (hpos : ∀ c ∈ (tree l.s).kids dir, ((tree l.s).obj c.1).neg = false) (n : Name) (h : ℕ)
    (hh : resolve (tree l.s).child r (path ++ [n]) = some h) :
    ((tree l.s).obj h).neg = false := by
  have hS := hC.shows _ _ (hC.follows hr).run hrest
  rw [resolve_concat, hdir, Option.bind_some] at hh
  exact hpos _ ((hS.listed dir h n).mpr hh)

theorem lists_iff (hC : E.Client P live fresh ok K s₀ tree r rest finds)
    (hr : Reach E.record (fun l a => ok l.s a) (.blank s₀) l) (hrest : rest l.s)
    {path : List Name} {dir : ℕ} (hdir : resolve (tree l.s).child r path = some dir) :
    Lists ((tree l.s).readdirCount r path) l.reg (finds l.s) path ↔
      ∀ n h, resolve (tree l.s).child r (path ++ [n]) = some h →
        ((tree l.s).obj h).neg = false := by
  have hF := hC.follows hr
  have hrec := hF.recorded
  rw [hC.names] at hrec
  exact (hC.shows _ _ hF.run hrest).lists_iff hrec hdir

theorem not_lists (hC : E.Client P live fresh ok K s₀ tree r rest finds)
    (hr : Reach E.record (fun l a => ok l.s a) (.blank s₀) l) (hrest : rest l.s) {n : Name} {h : ℕ}
    (hat : resolve (tree l.s).child r [n] = some h) (hneg : ((tree l.s).obj h).neg = true) :
    ¬ Lists ((tree l.s).readdirCount r []) l.reg (finds l.s) [] := by
  intro hL
  rw [(hC.lists_iff hr hrest (resolve_nil _ _)).mp hL n h hat] at hneg
  cases hneg

end Engine.Client

end Reports

end TrieBenchmark.Serial
