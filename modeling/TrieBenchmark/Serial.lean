import TrieBenchmark.Api
import Mathlib.Data.List.Infix
import Mathlib.Logic.Function.Basic

/-!
What the operations are for, when they run one at a time: the cache is a map from paths to
objects, and an operation answers from the map and edits it.
-/

namespace TrieBenchmark.Serial

structure Obj where
  host : ℕ
  isdir : Bool
  neg : Bool
  id : ℕ
  deriving DecidableEq

@[ext]
structure PathMap (Name : Type) where
  find : List Name → Option Obj

/-- Which allocations of an operation fail: that of its dentry, and that of its commit. -/
structure Plan where
  entry : Bool
  commit : Bool
  deriving DecidableEq

variable {Name : Type}

namespace PathMap

open Classical in
noncomputable def bind (N : PathMap Name) (path : List Name) (o : Obj) : PathMap Name :=
  ⟨Function.update N.find path (some o)⟩

open Classical in
noncomputable def prune (N : PathMap Name) (path : List Name) : PathMap Name :=
  ⟨fun p => if path <+: p then none else N.find p⟩

open Classical in
noncomputable def graft (N : PathMap Name) (src dst : List Name) : PathMap Name :=
  ⟨fun p => if dst <+: p then N.find (src ++ p.drop dst.length)
    else if src <+: p then none else N.find p⟩

open Classical in
noncomputable def swap (N : PathMap Name) (a b : List Name) : PathMap Name :=
  ⟨fun p => if a <+: p then N.find (b ++ p.drop a.length)
    else if b <+: p then N.find (a ++ p.drop b.length) else N.find p⟩

variable {N : PathMap Name} {p path src dst a b : List Name} {o : Obj}

@[simp] theorem bind_find_self : (N.bind path o).find path = some o := by
  simp [bind]

theorem bind_find_of_ne (hp : p ≠ path) : (N.bind path o).find p = N.find p := by
  simp [bind, hp]

theorem find_of_bind {o' : Obj} (ho : (N.bind path o').find p = some o) :
    p = path ∧ o' = o ∨ p ≠ path ∧ N.find p = some o := by
  rcases eq_or_ne p path with rfl | hp
  · exact .inl ⟨rfl, Option.some.inj (bind_find_self.symm.trans ho)⟩
  · exact .inr ⟨hp, bind_find_of_ne hp ▸ ho⟩

theorem prune_find_below (hp : path <+: p) : (N.prune path).find p = none :=
  if_pos hp

theorem prune_find_of_not (hp : ¬ path <+: p) : (N.prune path).find p = N.find p :=
  if_neg hp

theorem find_of_prune (ho : (N.prune path).find p = some o) :
    ¬ path <+: p ∧ N.find p = some o := by
  have hp : ¬ path <+: p := fun hp => by simp [prune_find_below hp] at ho
  exact ⟨hp, prune_find_of_not hp ▸ ho⟩

theorem graft_find_append (q : List Name) :
    (N.graft src dst).find (dst ++ q) = N.find (src ++ q) := by
  unfold graft
  simp

theorem graft_find_of_src (hd : ¬ dst <+: p) (hs : src <+: p) :
    (N.graft src dst).find p = none := by
  unfold graft
  simp [hd, hs]

theorem graft_find_of_not (hd : ¬ dst <+: p) (hs : ¬ src <+: p) :
    (N.graft src dst).find p = N.find p := by
  unfold graft
  simp [hd, hs]

theorem swap_find_left (q : List Name) : (N.swap a b).find (a ++ q) = N.find (b ++ q) := by
  unfold swap
  simp

theorem swap_find_right (hab : ∀ q, ¬ a <+: b ++ q) (q : List Name) :
    (N.swap a b).find (b ++ q) = N.find (a ++ q) := by
  unfold swap
  simp [hab q]

theorem swap_find_of_not (ha : ¬ a <+: p) (hb : ¬ b <+: p) : (N.swap a b).find p = N.find p := by
  unfold swap
  simp [ha, hb]

def HasChild (N : PathMap Name) (path : List Name) : Prop :=
  ∃ n, (N.find (path ++ [n])).isSome = true

variable (N : PathMap Name)

open Classical in
noncomputable def addTyped (fresh : ℕ) (plan : Plan) (path : List Name) (id : ℕ)
    (isdir positive : Bool) : Option Errno × PathMap Name :=
  if path = [] then (some .EEXIST, N)
  else match N.find path.dropLast with
    | none => (some .ENOENT, N)
    | some dir =>
      if dir.isdir = false then (some .ENOTDIR, N)
      else if (N.find path).isSome then (some .EEXIST, N)
      else if plan.entry then (some .ENOMEM, N)
      else if dir.neg then (some .ENOENT, N)
      else (none, N.bind path ⟨fresh, isdir, !positive, id⟩)

open Classical in
noncomputable def instantiate (path : List Name) (id : ℕ) : Option Errno × PathMap Name :=
  if path = [] then (some .EEXIST, N)
  else match N.find path with
    | none => (some .ENOENT, N)
    | some o =>
      if o.neg = false then (some .EEXIST, N)
      else (none, N.bind path { o with neg := false, id := id })

open Classical in
noncomputable def delete (path : List Name) : Option Errno × PathMap Name :=
  if path = [] then (some .EISDIR, N)
  else match N.find path with
    | none => (some .ENOENT, N)
    | some o =>
      if o.isdir = true ∧ N.HasChild path then (some .ENOTEMPTY, N)
      else if o.neg then (some .ENOENT, N)
      else (none, N.bind path { o with neg := true })

open Classical in
noncomputable def unlink (path : List Name) : Option Errno × PathMap Name :=
  if path = [] then (some .EINVAL, N)
  else match N.find path with
    | none => (some .ENOENT, N)
    | some _ => if N.HasChild path then (some .ENOTEMPTY, N) else (none, N.prune path)

open Classical in
/-- The destination may be free or hold a negative, and only a negative file is replaced. A
move without memory for its commit has dropped the negative already. -/
noncomputable def rename (plan : Plan) (src dst : List Name) : Option Errno × PathMap Name :=
  if src = [] ∨ dst = [] then (some .EINVAL, N)
  else match N.find src, N.find dst.dropLast with
    | some _, some dir =>
      if ∃ o, N.find dst = some o ∧ (dst = src ∨ o.neg = false) then (some .EEXIST, N)
      else if dir.neg then (some .ENOENT, N)
      else if plan.entry then (some .ENOMEM, N)
      else if src <+: dst.dropLast then (some .EINVAL, N)
      else if ∃ o, N.find dst = some o ∧ o.isdir = true then (some .EEXIST, N)
      else if plan.commit then (some .ENOMEM, N.prune dst)
      else (none, N.graft src dst)
    | _, _ => (some .ENOENT, N)

open Classical in
/-- A rename that judges what holds the destination before it looks for a loop. Memory is
there. -/
noncomputable def renameJudged (src dst : List Name) : Option Errno × PathMap Name :=
  if src = [] ∨ dst = [] then (some .EINVAL, N)
  else match N.find src, N.find dst.dropLast with
    | some _, some dir =>
      if ∃ o, N.find dst = some o ∧ (dst = src ∨ o.neg = false) then (some .EEXIST, N)
      else if dir.neg then (some .ENOENT, N)
      else if ∃ o, N.find dst = some o ∧ o.isdir = true then (some .EEXIST, N)
      else if src <+: dst.dropLast then (some .EINVAL, N)
      else (none, N.graft src dst)
    | _, _ => (some .ENOENT, N)

open Classical in
noncomputable def exchange (plan : Plan) (a b : List Name) : Option Errno × PathMap Name :=
  if a = [] ∨ b = [] then (some .EINVAL, N)
  else match N.find a, N.find b with
    | some _, some _ =>
      if a = b then (none, N)
      else if plan.entry then (some .ENOMEM, N)
      else if a <+: b.dropLast ∨ b <+: a.dropLast then (some .EINVAL, N)
      else if plan.commit then (some .ENOMEM, N)
      else (none, N.swap a b)
    | _, _ => (some .ENOENT, N)

def lookup (path : List Name) : DcResult × List ℕ :=
  let hosts := path.inits.tail.filterMap fun p => (N.find p).map Obj.host
  match path, N.find path with
  | [], _ => (.positive, hosts)
  | _ :: _, none => (.absent, hosts)
  | _ :: _, some o => (if o.neg then .negative else .positive, hosts)

end PathMap

section Prefixes

variable {p q : List Name} {n : Name}

theorem not_prefix_concat (hne : p ≠ q ++ [n]) (hp : ¬ p <+: q) : ¬ p <+: q ++ [n] :=
  fun h => (List.prefix_concat_iff.mp h).elim hne hp

theorem not_prefix_of_dropLast (hq : q ≠ []) (hne : q ≠ p) (hp : ¬ p <+: q.dropLast) :
    ¬ p <+: q := by
  have h := List.dropLast_append_getLast hq
  rw [← h] at hne ⊢
  exact not_prefix_concat hne.symm hp

theorem not_prefix_append (hpq : ¬ p <+: q) (hqp : ¬ q <+: p) (r : List Name) : ¬ p <+: q ++ r :=
  by
  intro h
  rcases List.prefix_or_prefix_of_prefix h (List.prefix_append q r) with h | h
  · exact hpq h
  · exact hqp h

end Prefixes

/-- Both tests refuse the rename: it would put the object below itself, onto the name of a
negative directory. -/
structure PathMap.Clash (N : PathMap Name) (src dst : List Name) : Prop where
  ne : src ≠ [] ∧ dst ≠ []
  source : (N.find src).isSome = true
  dir : ∃ dir, N.find dst.dropLast = some dir ∧ dir.neg = false
  below : src <+: dst.dropLast
  dest : ∃ o, N.find dst = some o ∧ o.neg = true ∧ o.isdir = true

theorem PathMap.Clash.ne_dst {N : PathMap Name} {src dst : List Name} (hC : N.Clash src dst) :
    dst ≠ src := by
  rintro rfl
  have hlen := hC.below.length_le
  rw [List.length_dropLast] at hlen
  have hpos := List.length_pos_iff.mpr hC.ne.2
  omega

open Classical in
/-- What a rename is refused with before the loop check and before it judges a negative that holds
the destination. -/
noncomputable def PathMap.refused (N : PathMap Name) (oom : Bool) (src dst : List Name) :
    Option Errno :=
  if src = [] ∨ dst = [] then some .EINVAL
  else match N.find src, N.find dst.dropLast with
    | some _, some dir =>
      if ∃ o, N.find dst = some o ∧ (dst = src ∨ o.neg = false) then some .EEXIST
      else if dir.neg then some .ENOENT
      else if oom then some .ENOMEM else none
    | _, _ => some .ENOENT

section Refused

variable (N : PathMap Name) (src dst : List Name)

open Classical in
theorem PathMap.rename_elim (plan : Plan) : N.rename plan src dst =
    (N.refused plan.entry src dst).elim (if src <+: dst.dropLast then (some .EINVAL, N)
      else if ∃ o, N.find dst = some o ∧ o.isdir = true then (some .EEXIST, N)
      else if plan.commit then (some .ENOMEM, N.prune dst) else (none, N.graft src dst))
      fun e => (some e, N) := by
  unfold rename refused
  cases N.find src <;> cases N.find dst.dropLast <;> dsimp only <;> split_ifs <;> rfl

open Classical in
theorem PathMap.renameJudged_elim : N.renameJudged src dst =
    (N.refused false src dst).elim
      (if ∃ o, N.find dst = some o ∧ o.isdir = true then (some .EEXIST, N)
      else if src <+: dst.dropLast then (some .EINVAL, N) else (none, N.graft src dst))
      fun e => (some e, N) := by
  unfold renameJudged refused
  cases N.find src <;> cases N.find dst.dropLast <;> dsimp only <;> split_ifs <;> simp_all

theorem PathMap.clash_iff : N.Clash src dst ↔ N.refused false src dst = none ∧
    src <+: dst.dropLast ∧ ∃ o, N.find dst = some o ∧ o.isdir = true := by
  constructor
  · intro hC
    obtain ⟨dir, hdir, hpos⟩ := hC.dir
    obtain ⟨o, ho, hneg, hisdir⟩ := hC.dest
    obtain ⟨v, hv⟩ := Option.isSome_iff_exists.mp hC.source
    refine ⟨?_, hC.below, o, ho, hisdir⟩
    simp [refused, hC.ne, hv, hdir, ho, hC.ne_dst, hneg, hpos]
  · rintro ⟨hr, hbelow, o, ho, hisdir⟩
    by_cases hnil : src = [] ∨ dst = []
    · simp [refused, hnil] at hr
    cases hv : N.find src <;> cases hdir : N.find dst.dropLast <;>
      simp only [refused, hnil, hv, hdir, if_false, reduceCtorEq] at hr
    split_ifs at hr with htaken hneg
    refine ⟨not_or.mp hnil, by rw [hv]; rfl, ⟨_, hdir, by simpa using hneg⟩, hbelow, o, ho, ?_,
      hisdir⟩
    by_contra hpos
    exact htaken ⟨o, ho, .inr (by simpa using hpos)⟩

end Refused

theorem PathMap.renameJudged_eq (N : PathMap Name) (src dst : List Name) :
    (N.Clash src dst → N.renameJudged src dst = (some .EEXIST, N) ∧
      N.rename ⟨false, false⟩ src dst = (some .EINVAL, N)) ∧
    (¬ N.Clash src dst → N.renameJudged src dst = N.rename ⟨false, false⟩ src dst) := by
  rw [renameJudged_elim, rename_elim, clash_iff]
  cases N.refused false src dst with
  | some => simp
  | none =>
    simp only [Option.elim_none, true_and]
    split_ifs <;> simp_all

noncomputable def serve (fresh : ℕ) (plan : Plan) (N : PathMap Name) :
    Op Name → Ret × PathMap Name
  | .addTyped path id isdir positive =>
    let r := N.addTyped fresh plan path id isdir positive
    (.code r.1, r.2)
  | .instantiate path id =>
    let r := N.instantiate path id
    (.code r.1, r.2)
  | .delete path =>
    let r := N.delete path
    (.code r.1, r.2)
  | .unlink path =>
    let r := N.unlink path
    (.code r.1, r.2)
  | .rename src dst =>
    let r := N.rename plan src dst
    (.code r.1, r.2)
  | .exchange a b =>
    let r := N.exchange plan a b
    (.code r.1, r.2)
  | .lookup path =>
    let r := N.lookup path
    (.lookup r.1 r.2, N)

open Classical in
noncomputable def spent (fresh : ℕ) (plan : Plan) (N : PathMap Name) : Op Name → ℕ
  | .addTyped path id isdir positive =>
    if (N.addTyped fresh plan path id isdir positive).1 = none then 1 else 0
  | .rename src dst => if (N.rename plan src dst).1 = none then 1 else 0
  | .exchange a b => if (N.exchange plan a b).1 = none ∧ a ≠ b then 2 else 0
  | _ => 0

noncomputable def serveNext (v : ℕ × PathMap Name) (o : Op Name) : Ret × (ℕ × PathMap Name) :=
  ((serve v.1 ⟨false, false⟩ v.2 o).1,
    (v.1 + spent v.1 ⟨false, false⟩ v.2 o, (serve v.1 ⟨false, false⟩ v.2 o).2))

noncomputable def serveAll (fresh : ℕ) (N : PathMap Name) :
    List (Op Name × Plan) → List Ret × PathMap Name
  | [] => ([], N)
  | (o, plan) :: ops =>
    let r := serve fresh plan N o
    let rest := serveAll (fresh + spent fresh plan N o) r.2 ops
    (r.1 :: rest.1, rest.2)

end TrieBenchmark.Serial
