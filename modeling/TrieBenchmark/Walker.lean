import TrieBenchmark.Naming
import TrieBenchmark.Shell

/-!
How a call that runs alone comes to the entries it works on: the walks and the lookups of a rename
and of an exchange, which the bucket-lock and the lock-free engine make alike and which leave the
cache as it is.
-/

namespace TrieBenchmark

open Option List Namei Serial

theorem insert_max_min (a b : ℕ) :
    (insert (max a b) (insert (min a b) ∅) : Set ℕ) = insert a (insert b ∅) := by
  rcases Nat.le_total a b with h | h
  · rw [Nat.max_eq_right h, Nat.min_eq_left h, Set.insert_comm]
  · rw [Nat.max_eq_left h, Nat.min_eq_right h]

/-- An engine's program counters and what leads from one to the next while nothing is written.
`cross` is where a rename has judged its destination, `find` and `findA` where it and the exchange
look up the tops. -/
structure Walker (Name P : Type) where
  child : ℕ → Name → Option ℕ
  obj : ℕ → Obj
  oom : Bool
  run : P → P → Prop
  start : Op Name → P
  walk : ℕ → List Name → Cont Name → P
  arrive : ℕ → Cont Name → P
  ret : Option Errno → P
  cross : ℕ → Name → ℕ → ℕ → Name → P
  find : Move Name → P
  findA : Xchg Name → P
  refl : ∀ x, run x x
  trans : ∀ {x y z}, run x y → run y z → run x z
  start_refuse : ∀ {o e}, o.start = .refuse e → start o = ret (some e)
  start_walk : ∀ {o dir k}, o.start = .walk dir k → start o = walk root dir k
  walk_nil : ∀ cur k, run (walk cur [] k) (arrive cur k)
  walk_cons : ∀ cur n rest k, run (walk cur (n :: rest) k)
    ((child cur n).elim (ret (some .ENOENT)) (walk · rest k))
  rename_from : ∀ fp sn ddir dn, run (arrive fp (.renameFrom sn ddir dn))
    ((child fp sn).elim (ret (some .ENOENT)) fun v => walk root ddir (.renameTo fp sn v dn))
  rename_to : ∀ fp sn v tp dn, run (arrive tp (.renameTo fp sn v dn))
    (if ∃ h, child tp dn = some h ∧ (h = v ∨ (obj h).neg = false) then ret (some .EEXIST)
      else cross fp sn v tp dn)
  exchange_a : ∀ pa na bdir nb,
    arrive pa (.exchangeA na bdir nb) = walk root bdir (.exchangeB pa na nb)
  exchange_b : ∀ pa na pb nb, run (arrive pb (.exchangeB pa na nb))
    (match child pa na, child pb nb with
      | some ha, some hb => if ha = hb then ret none
        else if oom then ret (some .ENOMEM) else findA ⟨pa, na, pb, nb⟩
      | _, _ => ret (some .ENOENT))

namespace Walker

variable {Name P : Type} (W : Walker Name P) {cur h : ℕ} {dir src dst a b : List Name} {name : Name}
  {k : Cont Name}

def names : PathMap Name :=
  pathMap W.child W.obj root

theorem walk_of_resolve (hr : resolve W.child cur dir = some h) :
    W.run (W.walk cur dir k) (W.arrive h k) := by
  induction dir generalizing cur with
  | nil =>
    obtain rfl : cur = h := some.inj hr
    exact W.walk_nil cur k
  | cons n dir ih =>
    obtain ⟨v, hv, hr⟩ := bind_eq_some_iff.mp hr
    have hstep := W.walk_cons cur n dir k
    rw [hv] at hstep
    exact W.trans hstep (ih hr)

theorem walk_of_none (hr : resolve W.child cur dir = none) :
    W.run (W.walk cur dir k) (W.ret (some .ENOENT)) := by
  induction dir generalizing cur with
  | nil => cases hr
  | cons n dir ih =>
    have hstep := W.walk_cons cur n dir k
    cases hv : W.child cur n with
    | none =>
      rw [hv] at hstep
      exact hstep
    | some v =>
      rw [hv] at hstep
      exact W.trans hstep (ih (by simpa [resolve, hv] using hr))

theorem missing (hnone : resolve W.child root (dir ++ [name]) = none)
    (hfind : ∀ parent, W.child parent name = none →
      W.run (W.arrive parent k) (W.ret (some .ENOENT))) :
    W.run (W.walk root dir k) (W.ret (some .ENOENT)) := by
  cases hdir : resolve W.child root dir with
  | none => exact W.walk_of_none hdir
  | some parent =>
    rw [resolve_dir hdir] at hnone
    exact W.trans (W.walk_of_resolve hdir) (hfind parent hnone)

theorem starts2 {k : Name → List Name → Name → Cont Name} {o : Op Name}
    (ho : o.start = startAt2 a b .EINVAL k) :
    (a = [] ∨ b = []) ∧ W.start o = W.ret (some .EINVAL) ∨
      ∃ adir na bdir nb, a = adir ++ [na] ∧ b = bdir ++ [nb] ∧
        W.start o = W.walk root adir (k na bdir nb) := by
  rcases eq_nil_or_concat' b with rfl | ⟨bdir, nb, rfl⟩
  · exact .inl ⟨.inr rfl, W.start_refuse ho⟩
  rcases eq_nil_or_concat' a with rfl | ⟨adir, na, rfl⟩
  · exact .inl ⟨.inl rfl, W.start_refuse (by simp [ho, startAt2, startAt])⟩
  · exact .inr ⟨adir, na, bdir, nb, rfl, rfl, W.start_walk (by simp [ho, startAt2, startAt])⟩

variable {W} in
theorem same_iff (hR : Rooted W.child root) {adir bdir : List Name} {na nb : Name} {pa pb ha hb : ℕ}
    (hda : resolve W.child root adir = some pa) (hdb : resolve W.child root bdir = some pb)
    (hra : W.child pa na = some ha) (hrb : W.child pb nb = some hb) :
    adir ++ [na] = bdir ++ [nb] ↔ ha = hb := by
  rw [← resolve_dir hda] at hra
  rw [← resolve_dir hdb] at hrb
  exact ⟨fun he => some.inj (hra.symm.trans (he ▸ hrb)), fun he => hR.resolve_inj hra (he ▸ hrb)⟩

/-- The lookups of a rename are over: the names of `m` lead to the moved entry `h` and to a
directory in which no other entry stands in the way. -/
structure Moves (m : Move Name) (sdir ddir : List Name) (h : ℕ) : Prop where
  fromDir : resolve W.child root sdir = some m.fromParent
  toDir : resolve W.child root ddir = some m.newParent
  moved : W.child m.fromParent m.fromName = some h
  cross : m.cross = decide (m.fromParent ≠ m.newParent)
  positive : (W.obj m.newParent).neg = false
  free : ∀ v, W.child m.newParent m.newName = some v → v ≠ h ∧ (W.obj v).neg = true
  run : W.run (W.start (.rename (sdir ++ [m.fromName]) (ddir ++ [m.newName]))) (W.find m)

theorem rename (hR : Rooted W.child root)
    (hcross : ∀ fp sn h tp dn, W.child fp sn = some h → W.run (W.cross fp sn h tp dn)
      (if (W.obj tp).neg then W.ret (some .ENOENT)
        else if W.oom then W.ret (some .ENOMEM) else W.find ⟨fp, sn, tp, dn, fp ≠ tp⟩))
    (src dst : List Name) :
    (∃ e, W.names.refused W.oom src dst = some e ∧
      W.run (W.start (.rename src dst)) (W.ret (some e))) ∨
    W.names.refused W.oom src dst = none ∧ ∃ m sdir ddir h, W.Moves m sdir ddir h ∧
      src = sdir ++ [m.fromName] ∧ dst = ddir ++ [m.newName] := by
  rcases W.starts2 (o := .rename src dst) rfl with ⟨hnil, hs⟩ | ⟨sdir, sn, ddir, dn, rfl, rfl, hs⟩
  · exact .inl ⟨.EINVAL, by simp [PathMap.refused, hnil], hs ▸ W.refl _⟩
  have hfrom : ∀ fp, resolve W.child root sdir = some fp → W.run (W.start _) _ := fun fp hfp =>
    hs ▸ W.trans (W.walk_of_resolve hfp) (W.rename_from fp sn ddir dn)
  cases hsd : resolve W.child root sdir with
  | none =>
    exact .inl ⟨.ENOENT, by simp [PathMap.refused, names, pathMap, resolve_dir_none hsd],
      hs ▸ W.walk_of_none hsd⟩
  | some fp =>
    have hrun := hfrom fp hsd
    cases hh : W.child fp sn with
    | none =>
      rw [hh] at hrun
      exact .inl ⟨.ENOENT, by simp [PathMap.refused, names, pathMap, resolve_dir hsd, hh], hrun⟩
    | some h =>
      rw [hh] at hrun
      cases hd : resolve W.child root ddir with
      | none =>
        exact .inl ⟨.ENOENT, by simp [PathMap.refused, names, pathMap, hd],
          W.trans hrun (W.walk_of_none hd)⟩
      | some tp =>
        have href : W.names.refused W.oom (sdir ++ [sn]) (ddir ++ [dn]) =
            if ∃ v, W.child tp dn = some v ∧ (v = h ∨ (W.obj v).neg = false) then some .EEXIST
            else if (W.obj tp).neg then some .ENOENT else if W.oom then some .ENOMEM else none := by
          cases hv : W.child tp dn with
          | none => simp [PathMap.refused, names, pathMap, resolve_dir hsd, resolve_dir hd, hd, hh, hv]
          | some v =>
            simp [PathMap.refused, names, pathMap, resolve_dir hsd, resolve_dir hd, hd, hh, hv,
              same_iff hR hd hsd hv hh]
        have hto := W.trans hrun (W.trans (W.walk_of_resolve hd) (W.rename_to fp sn h tp dn))
        rw [href]
        split_ifs at hto ⊢ with htaken hneg hoom
        · exact .inl ⟨_, rfl, hto⟩
        all_goals have hend := W.trans hto (hcross fp sn h tp dn hh)
        · rw [if_pos hneg] at hend
          exact .inl ⟨_, rfl, hend⟩
        · rw [if_neg hneg, if_pos hoom] at hend
          exact .inl ⟨_, rfl, hend⟩
        · rw [if_neg hneg, if_neg hoom] at hend
          refine .inr ⟨rfl, ⟨fp, sn, tp, dn, fp ≠ tp⟩, sdir, ddir, h,
            ⟨hsd, hd, hh, rfl, by simpa using hneg, fun v hv => ?_, hend⟩, rfl, rfl⟩
          simpa [not_or] using fun hb => htaken ⟨v, hv, hb⟩

/-- The lookups of an exchange are over: the names of `x` lead to two entries. -/
structure Swaps (x : Xchg Name) (adir bdir : List Name) : Prop where
  ne : adir ++ [x.na] ≠ bdir ++ [x.nb]
  a : resolve W.child root adir = some x.pa
  b : resolve W.child root bdir = some x.pb
  found : (∃ h, W.child x.pa x.na = some h) ∧ ∃ h, W.child x.pb x.nb = some h
  run : W.run (W.start (.exchange (adir ++ [x.na]) (bdir ++ [x.nb]))) (W.findA x)

open Classical in
theorem exchange (hR : Rooted W.child root) (plan : Plan) (hoom : plan.entry = W.oom)
    (a b : List Name) :
    (W.run (W.start (.exchange a b)) (W.ret (W.names.exchange plan a b).1) ∧
      (W.names.exchange plan a b).2 = W.names ∧ ((W.names.exchange plan a b).1 = none → a = b)) ∨
    ∃ x adir bdir, W.Swaps x adir bdir ∧ a = adir ++ [x.na] ∧ b = bdir ++ [x.nb] ∧
      W.names.exchange plan a b =
        if adir ++ [x.na] <+: bdir ∨ bdir ++ [x.nb] <+: adir then (some .EINVAL, W.names)
        else if plan.commit then (some .ENOMEM, W.names) else (none, W.names.swap a b) := by
  rcases W.starts2 (o := .exchange a b) rfl with ⟨hnil, hs⟩ | ⟨adir, na, bdir, nb, rfl, rfl, hs⟩
  · left
    simp [PathMap.exchange, hnil, hs, W.refl]
  cases hda : resolve W.child root adir with
  | none =>
    left
    simp [PathMap.exchange, names, pathMap, resolve_dir_none hda, hs, W.walk_of_none hda]
  | some pa =>
    have hwalk := W.walk_of_resolve (k := .exchangeA na bdir nb) hda
    rw [W.exchange_a, ← hs] at hwalk
    cases hdb : resolve W.child root bdir with
    | none =>
      left
      have hrun := W.trans hwalk (W.walk_of_none hdb)
      cases hra : W.child pa na <;>
        simp [PathMap.exchange, names, pathMap, resolve_dir hda, resolve_dir_none hdb, hra, hrun]
    | some pb =>
      have hrun := W.trans hwalk (W.trans (W.walk_of_resolve hdb) (W.exchange_b pa na pb nb))
      cases hra : W.child pa na with
      | none =>
        left
        simp only [hra] at hrun
        simp [PathMap.exchange, names, pathMap, resolve_dir hda, hra, hrun]
      | some ha =>
        cases hrb : W.child pb nb with
        | none =>
          left
          simp only [hra, hrb] at hrun
          simp [PathMap.exchange, names, pathMap, resolve_dir hda, resolve_dir hdb, hra, hrb, hrun]
        | some hb =>
          have hpa := (resolve_dir hda na).trans hra
          have hpb := (resolve_dir hdb nb).trans hrb
          have hsame := same_iff hR hda hdb hra hrb
          have hspec : W.names.exchange plan (adir ++ [na]) (bdir ++ [nb]) =
              if ha = hb then (none, W.names) else if W.oom then (some .ENOMEM, W.names)
              else if adir ++ [na] <+: bdir ∨ bdir ++ [nb] <+: adir then (some .EINVAL, W.names)
              else if plan.commit then (some .ENOMEM, W.names)
              else (none, W.names.swap (adir ++ [na]) (bdir ++ [nb])) := by
            simp [PathMap.exchange, names, pathMap, hpa, hpb, hsame, hoom]
          simp only [hra, hrb] at hrun
          by_cases he : ha = hb
          · rw [if_pos he] at hrun hspec
            rw [hspec]
            exact .inl ⟨hrun, rfl, fun _ => hsame.mpr he⟩
          rw [if_neg he] at hrun hspec
          cases ho : W.oom with
          | true =>
            rw [if_pos ho] at hrun hspec
            exact .inl (by simp [hspec, hrun])
          | false =>
            rw [if_neg (by simp [ho])] at hrun hspec
            exact .inr ⟨⟨pa, na, pb, nb⟩, adir, bdir, ⟨mt hsame.mp he, hda, hdb, ⟨⟨ha, hra⟩, hb, hrb⟩,
              hrun⟩, rfl, rfl, hspec⟩

end Walker

end TrieBenchmark
