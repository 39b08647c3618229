import TrieBenchmark.Naming
import Mathlib.Data.Set.Basic
import Mathlib.Data.List.Nodup

/-!
`dc_readdir` and `dc_walk` over the child lists of an engine, and what they report in terms of
the map from paths to objects.
-/

namespace TrieBenchmark.Serial

open List Function Namei

variable {Name : Type}

def PathMap.listing (N : PathMap Name) (path : List Name) : Option (Set (ℕ × Name)) :=
  (N.find path).map fun _ => {e | ∃ o, N.find (path ++ [e.2]) = some o ∧ o.id = e.1}

def PathMap.census (N : PathMap Name) : Set (ℕ × List Name) :=
  {e | e.2 ≠ [] ∧ e.2.length ≤ pathMax ∧ ∃ o, N.find e.2 = some o ∧ o.neg = false ∧ o.id = e.1}

/-- What an engine's reports read: the child a name is bound to, the entries of a child list
with their hosts and names, and the fields of a host. -/
structure Tree (Name : Type) where
  child : ℕ → Name → Option ℕ
  kids : ℕ → List (ℕ × Name)
  parent : ℕ → ℕ
  obj : ℕ → Obj

namespace Tree

def readdir (T : Tree Name) (r : ℕ) (path : List Name) : Option (List (ℕ × Name)) :=
  (resolve T.child r path).map fun dir => (T.kids dir).map fun c => ((T.obj c.1).id, c.2)

def readdirCount (T : Tree Name) (r : ℕ) (path : List Name) : Option (ℕ × List (ℕ × Name)) :=
  (resolve T.child r path).map fun dir => (T.kids dir).foldl
    (fun acc c => (acc.1 + 1, acc.2 ++ [((T.obj c.1).id, c.2)])) (0, [])

def visit (T : Tree Name) (h : ℕ) (path : List Name) : List (ℕ × List Name) :=
  if (path ≠ [] ∨ T.parent h ≠ h) ∧ (T.obj h).neg = false then [((T.obj h).id, path)] else []

def walkRec (T : Tree Name) : ℕ → ℕ → List Name → List (ℕ × List Name)
  | 0, h, path => T.visit h path
  | room + 1, h, path =>
    T.visit h path ++ (T.kids h).flatMap fun c => T.walkRec room c.1 (path ++ [c.2])

def walk (T : Tree Name) (r : ℕ) : List (ℕ × List Name) :=
  T.walkRec pathMax r []

def Listed (T : Tree Name) : Prop :=
  ∀ h c n, (c, n) ∈ T.kids h ↔ T.child h n = some c

variable {T : Tree Name} {r : ℕ} {p path : List Name}

theorem Listed.readdir (hT : T.Listed) (r : ℕ) (path : List Name) :
    (T.readdir r path).map (fun l => {e | e ∈ l}) = (pathMap T.child T.obj r).listing path := by
  unfold Tree.readdir PathMap.listing
  cases hr : resolve T.child r path with
  | none => rw [pathMap_eq_none.mpr hr]; rfl
  | some dir =>
    rw [pathMap_eq_some.mpr ⟨dir, hr, rfl⟩]
    simp only [Option.map_some, Option.some.injEq]
    apply Set.ext
    rintro ⟨i, n⟩
    simp only [mem_map, Prod.mk.injEq, Set.mem_ofPred_eq, pathMap_eq_some, resolve_append,
      hr, Option.bind_some]
    constructor
    · rintro ⟨⟨c, m⟩, hc, rfl, rfl⟩
      exact ⟨T.obj c, ⟨c, by simp [resolve, (hT dir c m).mp hc], rfl⟩, rfl⟩
    · rintro ⟨o, ⟨c, hc, rfl⟩, rfl⟩
      obtain ⟨c', hc', hcc⟩ := Option.bind_eq_some_iff.mp hc
      obtain rfl : c' = c := Option.some.inj hcc
      exact ⟨(c', n), (hT dir c' n).mpr hc', rfl, rfl⟩

theorem readdirCount_eq (T : Tree Name) (r : ℕ) (path : List Name) :
    T.readdirCount r path = (T.readdir r path).map fun l => (l.length, l) := by
  have hloop : ∀ (f : ℕ × Name → ℕ × Name) (l : List (ℕ × Name)) (acc : ℕ × List (ℕ × Name)),
      l.foldl (fun acc c => (acc.1 + 1, acc.2 ++ [f c])) acc =
        (acc.1 + l.length, acc.2 ++ l.map f) := by
    intro f l
    induction l with
    | nil => simp
    | cons _ _ ih =>
      intro acc
      rw [foldl_cons, ih]
      simp [Nat.add_comm, Nat.add_left_comm]
  unfold readdirCount readdir
  rw [Option.map_map]
  congr 1
  funext dir
  rw [hloop fun c => ((T.obj c.1).id, c.2)]
  simp

theorem mem_visit {h i : ℕ} : (i, p) ∈ T.visit h path ↔
    p = path ∧ (path ≠ [] ∨ T.parent h ≠ h) ∧ (T.obj h).neg = false ∧ (T.obj h).id = i := by
  unfold visit
  split_ifs with hv
  · simp only [mem_singleton, Prod.mk.injEq]
    constructor
    · rintro ⟨rfl, rfl⟩
      exact ⟨rfl, hv.1, hv.2, rfl⟩
    · rintro ⟨rfl, -, -, rfl⟩
      exact ⟨rfl, rfl⟩
  · simp only [not_mem_nil, false_iff]
    rintro ⟨-, hne, hneg, -⟩
    exact hv ⟨hne, hneg⟩

theorem Listed.mem_walkRec (hT : T.Listed) {room h i : ℕ} :
    (i, p) ∈ T.walkRec room h path ↔ ∃ q c, p = path ++ q ∧ q.length ≤ room ∧
      resolve T.child h q = some c ∧ (i, p) ∈ T.visit c p := by
  induction room generalizing h path with
  | zero =>
    simp only [walkRec, Nat.le_zero, length_eq_zero_iff]
    constructor
    · intro hv
      obtain rfl := (mem_visit.mp hv).1
      exact ⟨[], h, by simp, rfl, rfl, hv⟩
    · rintro ⟨q, c, rfl, rfl, hc, hv⟩
      obtain rfl : h = c := Option.some.inj hc
      simpa using hv
  | succ _ ih =>
    simp only [walkRec, mem_append, mem_flatMap]
    constructor
    · rintro (hv | ⟨⟨c, n⟩, hc, hw⟩)
      · obtain rfl := (mem_visit.mp hv).1
        exact ⟨[], h, by simp, by simp, rfl, hv⟩
      · obtain ⟨q, c', rfl, hlen, hq, hv⟩ := ih.mp hw
        refine ⟨n :: q, c', by simp, by simpa using hlen, ?_, hv⟩
        simp [resolve, (hT h c n).mp hc, hq]
    · rintro ⟨q, c, rfl, hlen, hq, hv⟩
      cases q with
      | nil =>
        obtain rfl : h = c := Option.some.inj hq
        left
        simpa using hv
      | cons n q =>
        obtain ⟨m, hm, hq⟩ := Option.bind_eq_some_iff.mp hq
        refine .inr ⟨(m, n), (hT h m n).mpr hm, ?_⟩
        exact ih.mpr ⟨q, c, by simp, by simpa using hlen, hq, hv⟩

theorem Listed.walk (hT : T.Listed) (hr : T.parent r = r) :
    {e | e ∈ T.walk r} = (pathMap T.child T.obj r).census := by
  apply Set.ext
  rintro ⟨i, p⟩
  simp only [Set.mem_ofPred_eq, Tree.walk, hT.mem_walkRec, nil_append, PathMap.census,
    pathMap_eq_some]
  constructor
  · rintro ⟨q, c, rfl, hlen, hc, hv⟩
    obtain ⟨-, hne, hneg, hid⟩ := mem_visit.mp hv
    refine ⟨?_, hlen, T.obj c, ⟨c, hc, rfl⟩, hneg, hid⟩
    rintro rfl
    -- the root is its own parent
    obtain rfl : r = c := Option.some.inj hc
    exact hne.elim (absurd rfl) (absurd hr)
  · rintro ⟨hne, hlen, o, ⟨c, hc, rfl⟩, hneg, hid⟩
    exact ⟨p, c, rfl, hlen, hc, mem_visit.mpr ⟨rfl, .inl hne, hneg, hid⟩⟩

def visits (T : Tree Name) : ℕ → ℕ → List Name → List (ℕ × ℕ × List Name)
  | 0, h, path => (T.visit h path).map (h, ·)
  | room + 1, h, path => (T.visit h path).map (h, ·) ++
      (T.kids h).flatMap fun c => T.visits room c.1 (path ++ [c.2])

theorem walkRec_eq (T : Tree Name) (room h : ℕ) (path : List Name) :
    T.walkRec room h path = (T.visits room h path).map Prod.snd := by
  induction room generalizing h path with
  | zero => simp [walkRec, visits, comp_def]
  | succ _ ih => simp [walkRec, visits, ih, comp_def, map_flatMap]

theorem Listed.of_mem_visits (hT : T.Listed) {room h c i : ℕ}
    (hv : (c, i, p) ∈ T.visits room h path) :
    ∃ q, p = path ++ q ∧ resolve T.child h q = some c ∧ (i, p) ∈ T.visit c p := by
  induction room generalizing h path with
  | zero =>
    obtain ⟨w, hw, he⟩ := mem_map.mp hv
    obtain ⟨rfl, rfl⟩ : h = c ∧ w = (i, p) := by simpa using he
    obtain rfl := (mem_visit.mp hw).1
    exact ⟨[], by simp, rfl, hw⟩
  | succ _ ih =>
    rcases mem_append.mp hv with hv | hv
    · obtain ⟨w, hw, he⟩ := mem_map.mp hv
      obtain ⟨rfl, rfl⟩ : h = c ∧ w = (i, p) := by simpa using he
      obtain rfl := (mem_visit.mp hw).1
      exact ⟨[], by simp, rfl, hw⟩
    · obtain ⟨⟨c', n⟩, hc, hv⟩ := mem_flatMap.mp hv
      obtain ⟨q, rfl, hq, hv⟩ := ih hv
      exact ⟨n :: q, by simp, by simp [resolve, (hT h c' n).mp hc, hq], hv⟩

theorem Listed.visits_nodup (hT : T.Listed) (hnd : ∀ h, (T.kids h).Nodup) (room h : ℕ)
    (path : List Name) : ((T.visits room h path).map fun v => v.2.2).Nodup := by
  have hself : ((T.visit h path).map fun e => e.2).Nodup := by
    unfold visit
    split_ifs <;> simp
  induction room generalizing h path with
  | zero => simpa [visits, comp_def] using hself
  | succ _ ih =>
    rw [visits, map_append, nodup_append]
    refine ⟨by simpa [comp_def] using hself, ?_, ?_⟩
    · rw [map_flatMap, nodup_flatMap]
      refine ⟨fun c _ => ih c.1 (path ++ [c.2]) ?_, (hnd h).imp_of_mem fun {c c'} hc hc' hne => ?_⟩
      · unfold visit
        split_ifs <;> simp
      · -- two children have two names
        have hname : c.2 ≠ c'.2 := by
          intro he
          refine hne (Prod.ext (Option.some.inj ?_) he)
          rw [← (hT h c.1 c.2).mp hc, he, (hT h c'.1 c'.2).mp hc']
        intro p hp hp'
        obtain ⟨v, hv, rfl⟩ := mem_map.mp hp
        obtain ⟨v', hv', he⟩ := mem_map.mp hp'
        obtain ⟨q, hq, -⟩ := hT.of_mem_visits hv
        obtain ⟨q', hq', -⟩ := hT.of_mem_visits hv'
        rw [hq, hq', append_assoc, append_assoc] at he
        simp only [append_cancel_left_eq, singleton_append, cons.injEq] at he
        exact hname he.1.symm
    · intro p hp p' hp' he
      obtain ⟨v, hv, rfl⟩ := mem_map.mp hp
      obtain ⟨w, hw, rfl⟩ := mem_map.mp hv
      obtain ⟨v', hv', rfl⟩ := mem_map.mp hp'
      obtain ⟨c, -, hv'⟩ := mem_flatMap.mp hv'
      obtain ⟨q, hq, -⟩ := hT.of_mem_visits hv'
      have hw' := (mem_visit.mp hw).1
      simp only at he
      rw [hw', hq] at he
      have hlen := congrArg length he
      simp at hlen

end Tree

end TrieBenchmark.Serial
