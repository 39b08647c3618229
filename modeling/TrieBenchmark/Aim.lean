import TrieBenchmark.Conserve
import TrieBenchmark.Shell

/-!
What a call that runs alone knows of the index between its steps: the directories it has
resolved, the entries it has found, and the ancestors it has passed. Flags and pending stores are
not part of it.
-/

namespace TrieBenchmark.Serial

open Namei

variable {Name : Type}

/-- The name index: the top that holds a name, and the host of a top. -/
structure Index (Name : Type) where
  top : ℕ → Name → Option ℕ
  host : ℕ → ℕ

def Silent (c : Call Name) : Prop :=
  ∀ h N L, enter c h N L = L

namespace Index

variable (v : Index Name)

def child (parent : ℕ) (name : Name) : Option ℕ :=
  (v.top parent name).map v.host

def resolve (path : List Name) : Option ℕ :=
  Namei.resolve v.child root path

def At (c : Call Name) (o : List Name → Op Name) (parent : ℕ) (name : Name) : Prop :=
  ∃ dir, v.resolve dir = some parent ∧ c = .op (o (dir ++ [name]))

structure Moves (c : Call Name) (m : Move Name) (sdir ddir : List Name) : Prop where
  call : c = .op (.rename (sdir ++ [m.fromName]) (ddir ++ [m.newName]))
  src : v.resolve sdir = some m.fromParent
  dst : v.resolve ddir = some m.newParent
  cross : m.CrossFits
  ne : sdir ++ [m.fromName] ≠ ddir ++ [m.newName]

structure Swaps (c : Call Name) (x : Xchg Name) (adir bdir : List Name) : Prop where
  call : c = .op (.exchange (adir ++ [x.na]) (bdir ++ [x.nb]))
  a : v.resolve adir = some x.pa
  b : v.resolve bdir = some x.pb
  ne : v.child x.pa x.na ≠ v.child x.pb x.nb

/-- The continuation of a walk to the directory `dir` carries on with the call `c`. -/
def Aims (c : Call Name) (dir : List Name) : Cont Name → Prop
  | .add name id isdir positive => c = .op (.addTyped (dir ++ [name]) id isdir positive)
  | .instantiate name id => c = .op (.instantiate (dir ++ [name]) id)
  | .delete name => c = .op (.delete (dir ++ [name]))
  | .unlink name => c = .op (.unlink (dir ++ [name]))
  | .renameFrom fromName toDir toName =>
    c = .op (.rename (dir ++ [fromName]) (toDir ++ [toName]))
  | .renameTo fromParent fromName victim toName => ∃ sdir, v.resolve sdir = some fromParent ∧
      v.child fromParent fromName = some victim ∧
      c = .op (.rename (sdir ++ [fromName]) (dir ++ [toName]))
  | .exchangeA na bDir nb => c = .op (.exchange (dir ++ [na]) (bDir ++ [nb]))
  | .exchangeB pa na nb => ∃ adir, v.resolve adir = some pa ∧
      c = .op (.exchange (adir ++ [na]) (dir ++ [nb]))

/-- The ancestry walk of `h` has come up from the directory `dir` to `cur` without meeting `h`. -/
def Climbs (h : ℕ) (dir : List Name) (cur : ℕ) : Prop :=
  ∃ pre suf, dir = pre ++ suf ∧ v.resolve pre = some cur ∧
    ∀ q, q <+: suf → q ≠ [] → v.resolve (pre ++ q) ≠ some h

def Renames (c : Call Name) (fromParent : ℕ) (fromName : Name) (victim toParent : ℕ)
    (toName : Name) : Prop :=
  ∃ sdir ddir, v.resolve sdir = some fromParent ∧ v.resolve ddir = some toParent ∧
    v.child fromParent fromName = some victim ∧
    c = .op (.rename (sdir ++ [fromName]) (ddir ++ [toName]))

def Pairs (c : Call Name) (x : Xchg Name) (topa topb : ℕ) (adir bdir : List Name) : Prop :=
  v.Swaps c x adir bdir ∧ v.top x.pa x.na = some topa ∧ v.top x.pb x.nb = some topb

def Ascends (x : Xchg Name) (topa topb : ℕ) (adir bdir : List Name) (second : Bool) (cur : ℕ) :
    Prop :=
  if second then ¬ adir ++ [x.na] <+: bdir ∧ v.Climbs (v.host topb) adir cur
  else v.Climbs (v.host topa) bdir cur

theorem aims_start {o : Op Name} {dir : List Name} {k : Cont Name} (h : o.start = .walk dir k) :
    v.Aims (.op o) dir k := by
  cases o with
  | addTyped | instantiate | delete | unlink =>
    obtain ⟨_, rfl, rfl⟩ := of_startAt h
    rfl
  | rename | exchange =>
    obtain ⟨_, _, _, rfl, rfl, rfl⟩ := of_startAt2 h
    rfl
  | lookup => cases h

variable {v} {c : Call Name} {h cur : ℕ} {dir sdir ddir : List Name} {n : Name}

theorem resolve_dir {parent : ℕ} (hd : v.resolve dir = some parent) (n : Name) :
    v.resolve (dir ++ [n]) = v.child parent n :=
  Namei.resolve_dir hd n

theorem resolve_top {parent top : ℕ} (hd : v.resolve dir = some parent)
    (ht : v.top parent n = some top) : v.resolve (dir ++ [n]) = some (v.host top) := by
  rw [resolve_dir hd, child, ht]
  rfl

theorem Renames.moves {fromParent victim toParent p : ℕ} {fromName toName : Name}
    (hR : v.Renames c fromParent fromName victim toParent toName)
    (hne : v.child toParent toName ≠ some victim) (hp : fromParent = p) :
    ∃ sdir ddir, v.Moves c ⟨fromParent, fromName, toParent, toName, p ≠ toParent⟩ sdir ddir := by
  obtain ⟨sdir, ddir, hs, hd, hv, hc⟩ := hR
  subst hp
  refine ⟨sdir, ddir, hc, hs, hd, decide_eq_true_iff, fun he => hne ?_⟩
  rw [← resolve_dir hd, ← he, resolve_dir hs, hv]

theorem Moves.silent {m : Move Name} (hM : v.Moves c m sdir ddir) : Silent c := by
  rw [hM.call]
  exact fun _ _ _ => rfl

theorem Moves.names_ne {m : Move Name} (hM : v.Moves c m sdir ddir) (hR : Rooted v.child root) :
    ¬ (m.fromParent = m.newParent ∧ m.fromName = m.newName) := by
  rintro ⟨hp, hn⟩
  obtain rfl : sdir = ddir := hR.resolve_inj (hp ▸ hM.src) hM.dst
  exact hM.ne (by rw [hn])

theorem Swaps.silent {x : Xchg Name} (hX : v.Swaps c x sdir ddir) : Silent c := by
  rw [hX.call]
  exact fun _ _ _ => rfl

theorem Climbs.start (hd : v.resolve dir = some cur) : v.Climbs h dir cur :=
  ⟨dir, [], by simp, hd, fun q hq hne => absurd (List.prefix_nil.mp hq) hne⟩

theorem Climbs.up {p : ℕ} (hC : v.Climbs h dir cur) (hroot : cur ≠ root) (hne : cur ≠ h)
    (hp : ∀ q m, v.child q m = some cur → q = p) : v.Climbs h dir p := by
  obtain ⟨pre, suf, rfl, hr, hclear⟩ := hC
  rcases List.eq_nil_or_concat' pre with rfl | ⟨pre, m, rfl⟩
  · exact absurd (Option.some.inj hr).symm hroot
  · have hr' := hr
    unfold resolve at hr'
    rw [resolve_concat] at hr'
    obtain ⟨q, hq, hqm⟩ := Option.bind_eq_some_iff.mp hr'
    obtain rfl := hp q m hqm
    refine ⟨pre, m :: suf, by simp, hq, fun w hw hwne => ?_⟩
    cases w with
    | nil => exact absurd rfl hwne
    | cons _ w =>
      obtain ⟨he, hw'⟩ := List.cons_prefix_cons.mp hw
      subst he
      cases w with
      | nil =>
        rw [hr]
        exact fun he => hne (Option.some.inj he)
      | cons m'' w => simpa using hclear (m'' :: w) hw' (by simp)

theorem Climbs.not_below (hC : v.Climbs h ddir root) (hR : Rooted v.child root)
    (hsrc : v.resolve (sdir ++ [n]) = some h) : ¬ sdir ++ [n] <+: ddir := by
  obtain ⟨pre, suf, rfl, hr, hclear⟩ := hC
  obtain rfl : pre = [] := hR.resolve_inj hr rfl
  intro hp
  exact hclear _ hp (by simp) hsrc

theorem Moves.not_below {m : Move Name} (hM : v.Moves c m sdir ddir) (hR : Rooted v.child root)
    (hc : m.cross = false) : ¬ sdir ++ [m.fromName] <+: ddir := by
  have hsame : m.fromParent = m.newParent := by
    by_contra hne
    rw [hM.cross.mpr hne] at hc
    cases hc
  have hsrc := hM.src
  rw [hsame] at hsrc
  obtain rfl : sdir = ddir := hR.resolve_inj hsrc hM.dst
  exact not_append_prefix_self sdir m.fromName

theorem Swaps.not_below {x : Xchg Name} {adir bdir : List Name} (hX : v.Swaps c x adir bdir)
    (hR : Rooted v.child root) (hc : x.cross = false) :
    ¬ adir ++ [x.na] <+: bdir ∧ ¬ bdir ++ [x.nb] <+: adir := by
  have hsame : x.pa = x.pb := by simpa [Xchg.cross] using hc
  have ha := hX.a
  rw [hsame] at ha
  obtain rfl : adir = bdir := hR.resolve_inj ha hX.b
  exact ⟨not_append_prefix_self adir x.na, not_append_prefix_self adir x.nb⟩

section Exchange

variable {x : Xchg Name} {topa topb : ℕ} {adir bdir : List Name} {second : Bool}

theorem Swaps.paths_ne (hX : v.Swaps c x adir bdir) : adir ++ [x.na] ≠ bdir ++ [x.nb] := by
  intro hp
  apply hX.ne
  rw [← resolve_dir hX.a, ← resolve_dir hX.b, hp]

theorem Pairs.ne (hP : v.Pairs c x topa topb adir bdir) : topa ≠ topb := by
  rintro rfl
  apply hP.1.ne
  rw [child, child, hP.2.1, hP.2.2]

theorem Pairs.ascends (hP : v.Pairs c x topa topb adir bdir) :
    v.Ascends x topa topb adir bdir false x.pb :=
  .start hP.1.b

theorem Ascends.up {p : ℕ} (hC : v.Ascends x topa topb adir bdir second cur) (hroot : cur ≠ root)
    (hne : cur ≠ v.host (if second then topb else topa))
    (hp : ∀ q m, v.child q m = some cur → q = p) : v.Ascends x topa topb adir bdir second p := by
  cases second with
  | false => exact Climbs.up hC hroot hne hp
  | true => exact ⟨hC.1, hC.2.up hroot hne hp⟩

theorem Ascends.turn (hC : v.Ascends x topa topb adir bdir false root)
    (hP : v.Pairs c x topa topb adir bdir) (hR : Rooted v.child root) :
    v.Ascends x topa topb adir bdir true x.pa :=
  ⟨Climbs.not_below hC hR (resolve_top hP.1.a hP.2.1), .start hP.1.a⟩

theorem Ascends.not_below (hC : v.Ascends x topa topb adir bdir true root)
    (hP : v.Pairs c x topa topb adir bdir) (hR : Rooted v.child root) :
    ¬ adir ++ [x.na] <+: bdir ∧ ¬ bdir ++ [x.nb] <+: adir :=
  ⟨hC.1, hC.2.not_below hR (resolve_top hP.1.b hP.2.2)⟩

end Exchange

theorem not_prefix_concat {p q : List Name} (hne : p ≠ q ++ [n]) (hp : ¬ p <+: q) :
    ¬ p <+: q ++ [n] := fun h => (List.prefix_concat_iff.mp h).elim hne hp

end Index

end TrieBenchmark.Serial
