import TrieBenchmark.Conserve
import TrieBenchmark.Seqlock.Solo

/-!
Maps from paths to objects that differ in the identities of the objects only, and the two orders
of tests of the seqlock engine and of the bucket-lock engine on one map.
-/

namespace TrieBenchmark

open Option

variable {Name : Type}

def Ret.blank : Ret → Ret
  | .code e => .code e
  | .lookup res _ => .lookup res []

theorem Ret.eq_code_of_blank {r : Ret} {e : Option Errno} (h : r.blank = .code e) : r = .code e := by
  cases r with
  | code => exact h
  | lookup => cases h

namespace Serial

def Obj.blank (o : Obj) : Obj :=
  { o with host := 0 }

namespace PathMap

def blank (N : PathMap Name) : PathMap Name :=
  ⟨fun p => (N.find p).map Obj.blank⟩

variable {N N' : PathMap Name} {p path src dst a b : List Name} {o : Obj}

@[simp] theorem blank_find : N.blank.find p = (N.find p).map Obj.blank := rfl

theorem bind_blank : (N.bind path o).blank = N.blank.bind path o.blank := by
  apply PathMap.ext
  funext p
  by_cases hp : p = path
  · subst hp
    simp
  · rw [bind_find_of_ne hp, blank_find, bind_find_of_ne hp, blank_find]

theorem prune_blank : (N.prune path).blank = N.blank.prune path := by
  apply PathMap.ext
  funext p
  rw [blank_find]
  by_cases hp : path <+: p
  · rw [prune_find_below hp, prune_find_below hp]
    rfl
  · rw [prune_find_of_not hp, prune_find_of_not hp, blank_find]

theorem graft_blank : (N.graft src dst).blank = N.blank.graft src dst := by
  apply PathMap.ext
  funext p
  unfold graft
  rw [blank_find]
  dsimp only [blank]
  split_ifs <;> rfl

theorem swap_blank : (N.swap a b).blank = N.blank.swap a b := by
  apply PathMap.ext
  funext p
  unfold swap
  rw [blank_find]
  dsimp only [blank]
  split_ifs <;> rfl

theorem hasChild_blank : N.blank.HasChild path ↔ N.HasChild path := by
  simp [HasChild]

variable (N path) in
theorem exists_blank {P : Obj → Prop} (hP : ∀ o : Obj, P o.blank ↔ P o) :
    (∃ o, N.blank.find path = some o ∧ P o) ↔ ∃ o, N.find path = some o ∧ P o := by
  rw [blank_find]
  cases N.find path with
  | none => simp
  | some => simp [hP]

def forget (r : Option Errno × PathMap Name) : Option Errno × PathMap Name :=
  (r.1, r.2.blank)

theorem blank_blank : N.blank.blank = N.blank := by
  apply PathMap.ext
  funext p
  rw [blank_find, blank_find, Option.map_map]
  rfl

theorem census_blank : N.blank.census = N.census := by
  apply Set.ext
  intro e
  simp only [census, Set.mem_ofPred_eq]
  rw [exists_blank _ _ (P := fun o => o.neg = false ∧ o.id = e.1) fun _ => Iff.rfl]

section Commute

variable {fresh fresh' id : ℕ} {plan : Plan} {isdir positive : Bool}

/-- What an operation on one path does for an entry it finds is all that can tell identities. -/
theorem forget_one {e : Errno} {g g' : Obj → Option Errno × PathMap Name}
    (h : ∀ host isdir neg id, forget (g ⟨host, isdir, neg, id⟩) = forget (g' ⟨0, isdir, neg, id⟩)) :
    forget (if path = [] then (some e, N) else match N.find p with
      | none => (some .ENOENT, N)
      | some o => g o) =
    forget (if path = [] then (some e, N.blank) else match N.blank.find p with
      | none => (some .ENOENT, N.blank)
      | some o => g' o) := by
  by_cases hp : path = []
  · simp only [hp, if_true, forget, blank_blank]
  rw [if_neg hp, if_neg hp, blank_find]
  cases N.find p with
  | none => simp only [map_none, forget, blank_blank]
  | some => exact h _ _ _ _

theorem forget_two {g g' : Obj → Option Errno × PathMap Name}
    (h : ∀ host isdir neg id, forget (g ⟨host, isdir, neg, id⟩) = forget (g' ⟨0, isdir, neg, id⟩)) :
    forget (if a = [] ∨ b = [] then (some .EINVAL, N) else match N.find a, N.find p with
      | some _, some o => g o
      | _, _ => (some .ENOENT, N)) =
    forget (if a = [] ∨ b = [] then (some .EINVAL, N.blank)
      else match N.blank.find a, N.blank.find p with
        | some _, some o => g' o
        | _, _ => (some .ENOENT, N.blank)) := by
  by_cases hp : a = [] ∨ b = []
  · simp only [hp, if_true, forget, blank_blank]
  rw [if_neg hp, if_neg hp, blank_find, blank_find]
  cases N.find a with
  | none => simp only [map_none, forget, blank_blank]
  | some =>
    cases N.find p with
    | none => simp only [map_none, map_some, forget, blank_blank]
    | some => exact h _ _ _ _

theorem addTyped_blank : forget (N.addTyped fresh plan path id isdir positive) =
    forget (N.blank.addTyped fresh' plan path id isdir positive) := by
  unfold addTyped
  refine forget_one fun _ _ _ _ => ?_
  simp only [blank_find, isSome_map]
  split_ifs <;> simp only [forget, blank_blank, bind_blank, Obj.blank]

theorem addJudged_blank : forget (N.addJudged fresh path id isdir positive) =
    forget (N.blank.addJudged fresh' path id isdir positive) := by
  unfold addJudged
  refine forget_one fun _ _ _ _ => ?_
  simp only [blank_find, isSome_map]
  split_ifs <;> simp only [forget, blank_blank, bind_blank, Obj.blank]

theorem instantiate_blank :
    forget (N.instantiate path id) = forget (N.blank.instantiate path id) := by
  unfold instantiate
  refine forget_one fun _ _ _ _ => ?_
  split_ifs <;> simp only [forget, blank_blank, bind_blank, Obj.blank]

theorem delete_blank : forget (N.delete path) = forget (N.blank.delete path) := by
  classical
  unfold delete
  refine forget_one fun _ _ _ _ => ?_
  simp only [hasChild_blank]
  split_ifs <;> simp only [forget, blank_blank, bind_blank, Obj.blank]

theorem deleteJudged_blank : forget (N.deleteJudged path) = forget (N.blank.deleteJudged path) := by
  classical
  unfold deleteJudged
  refine forget_one fun _ _ _ _ => ?_
  simp only [hasChild_blank]
  split_ifs <;> simp only [forget, blank_blank, bind_blank, Obj.blank]

theorem unlink_blank : forget (N.unlink path) = forget (N.blank.unlink path) := by
  classical
  unfold unlink
  refine forget_one fun _ _ _ _ => ?_
  simp only [hasChild_blank]
  split_ifs <;> simp only [forget, blank_blank, prune_blank]

theorem rename_blank : forget (N.rename plan src dst) = forget (N.blank.rename plan src dst) := by
  classical
  unfold rename
  have hheld := exists_blank N dst (P := fun o => dst = src ∨ o.neg = false)
    fun _ => Iff.rfl
  have hdir := exists_blank N dst (P := fun o => o.isdir = true) fun _ => Iff.rfl
  refine forget_two fun _ _ _ _ => ?_
  simp only [hheld, hdir]
  split_ifs <;> simp only [forget, blank_blank, prune_blank, graft_blank]

theorem renameOver_blank : forget (N.renameOver src dst) = forget (N.blank.renameOver src dst) := by
  classical
  unfold renameOver
  have hheld := exists_blank N dst (P := fun o => dst = src ∨ o.neg = false)
    fun _ => Iff.rfl
  refine forget_two fun _ _ _ _ => ?_
  simp only [hheld]
  split_ifs <;> simp only [forget, blank_blank, graft_blank]

theorem exchange_blank : forget (N.exchange plan a b) = forget (N.blank.exchange plan a b) := by
  unfold exchange
  refine forget_two fun _ _ _ _ => ?_
  split_ifs <;> simp only [forget, blank_blank, swap_blank]

theorem lookup_blank : (N.lookup path).1 = (N.blank.lookup path).1 := by
  unfold lookup
  cases path with
  | nil => rfl
  | cons n path =>
    simp only [blank_find]
    cases N.find (n :: path) <;> rfl

end Commute

def NegLeaf (N : PathMap Name) : Prop :=
  ∀ p o, N.find p = some o → o.neg = true → o.isdir = true → ¬ N.HasChild p

theorem HasChild.mono {N' : PathMap Name} (h : N.HasChild p)
    (hfind : ∀ n, (N.find (p ++ [n])).isSome = true → (N'.find (p ++ [n])).isSome = true) :
    N'.HasChild p := by
  obtain ⟨n, hn⟩ := h
  exact ⟨n, hfind n hn⟩

theorem hasChild_of_concat {n : Name} (ho : N.find (p ++ [n]) = some o) : N.HasChild p :=
  ⟨n, by rw [ho]; rfl⟩

theorem hasChild_dropLast (hne : path ≠ []) (ho : N.find path = some o) :
    N.HasChild path.dropLast := by
  obtain ⟨dir, n, rfl⟩ := List.eq_nil_or_concat path |>.resolve_left hne
  rw [List.concat_eq_append] at ho ⊢
  rw [List.dropLast_concat]
  exact hasChild_of_concat ho

namespace NegLeaf

theorem bind_new {fresh : ℕ} {dir : Obj} (hL : N.NegLeaf) (hN : Proper fresh N)
    (hdir : N.find path.dropLast = some dir) (hpos : dir.neg = false)
    (hfree : N.find path = none) : (N.bind path o).NegLeaf := by
  intro p o' ho' hneg hisdir ⟨n, hn⟩
  by_cases hp : p = path
  · subst hp
    have hclosed := hN.closed p [n] hfree
    rw [bind_find_of_ne (by simp), hclosed] at hn
    cases hn
  · rw [bind_find_of_ne hp] at ho'
    by_cases hpn : p ++ [n] = path
    · subst hpn
      rw [List.dropLast_concat, ho'] at hdir
      obtain rfl := some.inj hdir
      rw [hneg] at hpos
      cases hpos
    · rw [bind_find_of_ne hpn] at hn
      exact hL p o' ho' hneg hisdir ⟨n, hn⟩

theorem bind_old {o₀ : Obj} (hL : N.NegLeaf) (ho₀ : N.find path = some o₀)
    (hnew : o.neg = true → o.isdir = true → ¬ N.HasChild path) : (N.bind path o).NegLeaf := by
  have hback : ∀ p, (N.bind path o).HasChild p → N.HasChild p := by
    intro p hp
    apply hp.mono
    intro n hn
    by_cases hpn : p ++ [n] = path
    · rw [hpn, ho₀]
      rfl
    · rwa [bind_find_of_ne hpn] at hn
  intro p o' ho' hneg hisdir hchild
  rcases find_of_bind ho' with ⟨rfl, rfl⟩ | ⟨hp, ho'⟩
  · exact hnew hneg hisdir (hback p hchild)
  · exact hL p o' ho' hneg hisdir (hback p hchild)

theorem prune (hL : N.NegLeaf) : (N.prune path).NegLeaf := by
  intro p o' ho' hneg hisdir hchild
  apply hL p o' (find_of_prune ho').2 hneg hisdir
  apply hchild.mono
  intro n hn
  obtain ⟨o, ho⟩ := isSome_iff_exists.mp hn
  rw [(find_of_prune ho).2]
  rfl

theorem graft {dir : Obj} (hL : N.NegLeaf) (hne : dst ≠ [])
    (hdir : N.find dst.dropLast = some dir) (hpos : dir.neg = false) :
    (N.graft src dst).NegLeaf := by
  intro p o' ho' hneg hisdir ⟨n, hn⟩
  by_cases hd : dst <+: p
  · obtain ⟨q, rfl⟩ := hd
    rw [graft_find_append] at ho'
    rw [List.append_assoc, graft_find_append, ← List.append_assoc] at hn
    exact hL _ o' ho' hneg hisdir ⟨n, hn⟩
  by_cases hs : src <+: p
  · rw [graft_find_of_src hd hs] at ho'
    cases ho'
  rw [graft_find_of_not hd hs] at ho'
  by_cases hdn : dst <+: p ++ [n]
  · -- the new child of the directory, which is positive
    obtain rfl : dst = p ++ [n] := (List.prefix_concat_iff.mp hdn).resolve_right hd
    rw [List.dropLast_concat, ho'] at hdir
    obtain rfl := some.inj hdir
    rw [hneg] at hpos
    cases hpos
  by_cases hsn : src <+: p ++ [n]
  · rw [graft_find_of_src hdn hsn] at hn
    cases hn
  · rw [graft_find_of_not hdn hsn] at hn
    exact hL p o' ho' hneg hisdir ⟨n, hn⟩

theorem swap {oa ob : Obj} (hL : N.NegLeaf) (ha : N.find a = some oa) (hb : N.find b = some ob)
    (hab : ∀ q, ¬ a <+: b ++ q) : (N.swap a b).NegLeaf := by
  intro p o' ho' hneg hisdir ⟨n, hn⟩
  by_cases hpa : a <+: p
  · obtain ⟨q, rfl⟩ := hpa
    rw [swap_find_left] at ho'
    rw [List.append_assoc, swap_find_left, ← List.append_assoc] at hn
    exact hL _ o' ho' hneg hisdir ⟨n, hn⟩
  by_cases hpb : b <+: p
  · obtain ⟨q, rfl⟩ := hpb
    rw [swap_find_right hab] at ho'
    rw [List.append_assoc, swap_find_right hab, ← List.append_assoc] at hn
    exact hL _ o' ho' hneg hisdir ⟨n, hn⟩
  rw [swap_find_of_not hpa hpb] at ho'
  apply hL p o' ho' hneg hisdir
  -- a name of `p` that changes holds one of the two objects, before and after
  by_cases hna : a <+: p ++ [n]
  · obtain rfl := (List.prefix_concat_iff.mp hna).resolve_right hpa
    exact hasChild_of_concat ha
  by_cases hnb : b <+: p ++ [n]
  · obtain rfl := (List.prefix_concat_iff.mp hnb).resolve_right hpb
    exact hasChild_of_concat hb
  · rw [swap_find_of_not hna hnb] at hn
    exact ⟨n, hn⟩

theorem serve {fresh : ℕ} (hL : N.NegLeaf) (hN : Proper fresh N) (o : Op Name) :
    (Serial.serve fresh ⟨false, false⟩ N o).2.NegLeaf := by
  cases o with
  | addTyped path =>
    simp only [Serial.serve, addTyped, Bool.false_eq_true, if_false]
    by_cases hne : path = []
    · rwa [if_pos hne]
    rw [if_neg hne]
    cases hdir : N.find path.dropLast with
    | none => exact hL
    | some =>
      dsimp only
      split_ifs with _ hfree hneg
      · exact hL
      · exact hL
      · exact hL
      · exact hL.bind_new hN hdir (by simpa using hneg) (by simpa using hfree)
  | instantiate path =>
    simp only [Serial.serve, instantiate]
    by_cases hne : path = []
    · rwa [if_pos hne]
    rw [if_neg hne]
    cases ho : N.find path with
    | none => exact hL
    | some =>
      dsimp only
      split_ifs
      · exact hL
      · exact hL.bind_old ho (by simp)
  | delete path =>
    simp only [Serial.serve, delete]
    by_cases hne : path = []
    · rwa [if_pos hne]
    rw [if_neg hne]
    cases ho : N.find path with
    | none => exact hL
    | some =>
      dsimp only
      split_ifs with hempty
      · exact hL
      · exact hL
      · exact hL.bind_old ho fun _ hisdir hchild => hempty ⟨hisdir, hchild⟩
  | unlink path =>
    simp only [Serial.serve, unlink]
    by_cases hne : path = []
    · rwa [if_pos hne]
    rw [if_neg hne]
    cases ho : N.find path with
    | none => exact hL
    | some =>
      dsimp only
      split_ifs
      · exact hL
      · exact hL.prune
  | rename src dst =>
    simp only [Serial.serve, rename, Bool.false_eq_true, if_false]
    by_cases hne : src = [] ∨ dst = []
    · rwa [if_pos hne]
    rw [if_neg hne]
    cases hs : N.find src with
    | none => exact hL
    | some =>
      cases hdir : N.find dst.dropLast with
      | none => exact hL
      | some =>
        dsimp only
        split_ifs with _ hneg
        · exact hL
        · exact hL
        · exact hL
        · exact hL
        · exact hL.graft (not_or.mp hne).2 hdir (by simpa using hneg)
  | exchange a b =>
    simp only [Serial.serve, exchange, Bool.false_eq_true, if_false]
    by_cases hne : a = [] ∨ b = []
    · rwa [if_pos hne]
    rw [if_neg hne]
    cases ha : N.find a with
    | none => exact hL
    | some =>
      cases hb : N.find b with
      | none => exact hL
      | some =>
        dsimp only
        split_ifs with heq hbelow
        · exact hL
        · exact hL
        · rw [not_or] at hne hbelow
          exact hL.swap ha hb <| not_prefix_append
            (not_prefix_of_dropLast hne.2 (Ne.symm heq) hbelow.1)
            (not_prefix_of_dropLast hne.1 heq hbelow.2)
  | lookup => exact hL

end NegLeaf

/-- Both engines refuse the rename, for different reasons: the name is taken, and the directory is
negative or below the source. -/
def Refused (N : PathMap Name) (src dst : List Name) : Prop :=
  src ≠ [] ∧ dst ≠ [] ∧ (N.find src).isSome = true ∧
    (∃ o, N.find dst = some o ∧ (dst = src ∨ o.neg = false)) ∧
    ∃ dir, N.find dst.dropLast = some dir ∧ (dir.neg = true ∨ src <+: dst.dropLast)

def OverDir (N : PathMap Name) (src dst : List Name) : Prop :=
  src ≠ [] ∧ dst ≠ [] ∧ (N.find src).isSome = true ∧
    (∃ dir, N.find dst.dropLast = some dir ∧ dir.neg = false) ∧ ¬ src <+: dst.dropLast ∧
    ∃ o, N.find dst = some o ∧ dst ≠ src ∧ o.neg = true ∧ o.isdir = true

section Orders

variable {fresh id : ℕ} {isdir positive : Bool}

theorem addJudged_eq (hL : N.NegLeaf) : N.addJudged fresh path id isdir positive =
    N.addTyped fresh ⟨false, false⟩ path id isdir positive := by
  unfold addJudged addTyped
  by_cases hne : path = []
  · simp only [hne, if_true]
  simp only [hne, if_false]
  cases hd : N.find path.dropLast with
  | none => rfl
  | some dir =>
    cases hisdir : dir.isdir with
    | false => simp [hisdir]
    | true =>
      cases hneg : dir.neg with
      | false => simp [hneg]
      | true =>
        cases ho : N.find path with
        | none => simp
        | some => exact absurd (hasChild_dropLast hne ho) (hL _ dir hd hneg hisdir)

theorem deleteJudged_eq (hL : N.NegLeaf) : N.deleteJudged path = N.delete path := by
  unfold deleteJudged delete
  by_cases hne : path = []
  · simp only [hne, if_true]
  simp only [hne, if_false]
  cases ho : N.find path with
  | none => rfl
  | some o =>
    cases hneg : o.neg with
    | false => simp [hneg]
    | true =>
      have hno : ¬ (o.isdir = true ∧ N.HasChild path) :=
        fun h => hL _ o ho hneg h.1 h.2
      simp only [hno, if_false]

theorem renameOver_of_refused (hR : N.Refused src dst) :
    N.rename ⟨false, false⟩ src dst = (some .EEXIST, N) ∧
      (N.renameOver src dst = (some .ENOENT, N) ∨ N.renameOver src dst = (some .EINVAL, N)) := by
  obtain ⟨hs, hd, hsome, hheld, dir, hdir, hwhy⟩ := hR
  obtain ⟨o, ho⟩ := isSome_iff_exists.mp hsome
  have hne : ¬ (src = [] ∨ dst = []) := not_or.mpr ⟨hs, hd⟩
  unfold rename renameOver
  simp only [hne, ho, hdir, hheld, if_true, if_false, true_and]
  cases hneg : dir.neg with
  | true => simp
  | false =>
    rw [hneg] at hwhy
    have hbelow := hwhy.resolve_left nofun
    simp [hbelow]

theorem renameOver_of_overDir (hD : N.OverDir src dst) :
    N.rename ⟨false, false⟩ src dst = (some .EEXIST, N) ∧
      N.renameOver src dst = (none, N.graft src dst) := by
  obtain ⟨hs, hd, hsome, ⟨dir, hdir, hpos⟩, hbelow, o', ho', hne', hneg, hisdir⟩ := hD
  obtain ⟨o, ho⟩ := isSome_iff_exists.mp hsome
  have hne : ¬ (src = [] ∨ dst = []) := not_or.mpr ⟨hs, hd⟩
  unfold rename renameOver
  simp [hne, ho, hdir, hpos, hbelow, ho', hne', hneg, hisdir]

theorem renameOver_eq (hR : ¬ N.Refused src dst) (hD : ¬ N.OverDir src dst) :
    N.renameOver src dst = N.rename ⟨false, false⟩ src dst := by
  by_cases hne : src = [] ∨ dst = []
  · unfold renameOver rename
    simp only [hne, if_true]
  unfold renameOver rename
  simp only [hne, if_false]
  rw [not_or] at hne
  cases hs : N.find src with
  | none => cases N.find dst.dropLast <;> rfl
  | some =>
    have hsome : (N.find src).isSome = true := by rw [hs]; rfl
    cases hd : N.find dst.dropLast with
    | none => rfl
    | some dir =>
      by_cases hheld : ∃ o, N.find dst = some o ∧ (dst = src ∨ o.neg = false)
      · have hwhy : ¬ (dir.neg = true ∨ src <+: dst.dropLast) :=
          fun h => hR ⟨hne.1, hne.2, hsome, hheld, dir, hd, h⟩
        rw [not_or] at hwhy
        simp only [hwhy.1, hwhy.2, hheld, if_true, if_false]
        rfl
      by_cases hpos : dir.neg = true
      · simp only [hheld, hpos, if_true, if_false]
      by_cases hbelow : src <+: dst.dropLast
      · simp only [hheld, hpos, hbelow, if_true, if_false]
        rfl
      have hfile : ¬ ∃ o, N.find dst = some o ∧ o.isdir = true := by
        rintro ⟨o, ho, hisdir⟩
        have hbad : ¬ (dst = src ∨ o.neg = false) := fun h => hheld ⟨o, ho, h⟩
        rw [not_or] at hbad
        exact hD ⟨hne.1, hne.2, hsome, ⟨dir, hd, by simpa using hpos⟩, hbelow, o, ho,
          hbad.1, by simpa using hbad.2, hisdir⟩
      simp only [hheld, hpos, hbelow, hfile, if_false]
      rfl

end Orders

end PathMap

end Serial

open Serial

def Op.Refused (N : PathMap Name) : Op Name → Prop
  | .rename src dst => N.Refused src dst
  | _ => False

def Op.OverDir (N : PathMap Name) : Op Name → Prop
  | .rename src dst => N.OverDir src dst
  | _ => False

namespace Serial

def strip (r : Ret × PathMap Name) : Ret × PathMap Name :=
  (r.1.blank, r.2.blank)

variable {N N' : PathMap Name}

theorem strip_code {r r' : Option Errno × PathMap Name} (h : PathMap.forget r = PathMap.forget r') :
    strip ((.code r.1, r.2) : Ret × PathMap Name) = strip (.code r'.1, r'.2) := by
  obtain ⟨hcode, hmap⟩ := Prod.mk.inj h
  simp only [strip, Ret.blank, hcode, hmap]

theorem serve_blank (fresh fresh' : ℕ) (plan : Plan) (o : Op Name) :
    strip (serve fresh plan N o) = strip (serve fresh' plan N.blank o) := by
  cases o with
  | addTyped => exact strip_code PathMap.addTyped_blank
  | instantiate => exact strip_code PathMap.instantiate_blank
  | delete => exact strip_code PathMap.delete_blank
  | unlink => exact strip_code PathMap.unlink_blank
  | rename => exact strip_code PathMap.rename_blank
  | exchange => exact strip_code PathMap.exchange_blank
  | lookup =>
    simp only [serve, strip, Ret.blank, PathMap.blank_blank, PathMap.lookup_blank (N := N)]

theorem served_blank (fresh fresh' : ℕ) (o : Op Name) :
    strip (Seqlock.served fresh N o) = strip (Seqlock.served fresh' N.blank o) := by
  cases o with
  | addTyped => exact strip_code PathMap.addJudged_blank
  | delete => exact strip_code PathMap.deleteJudged_blank
  | rename => exact strip_code PathMap.renameOver_blank
  | _ => exact serve_blank fresh fresh' _ _

theorem served_alike (fresh fresh' : ℕ) (hN : N.blank = N'.blank) (o : Op Name) :
    strip (Seqlock.served fresh' N' o) = strip (Seqlock.served fresh N o) := by
  rw [served_blank fresh' fresh, ← hN, ← served_blank fresh fresh]

theorem served_agrees {fresh fresh' : ℕ} (hN : N.blank = N'.blank) (hL : N.NegLeaf) {o : Op Name}
    (hR : ¬ o.Refused N) (hD : ¬ o.OverDir N) :
    strip (Seqlock.served fresh' N' o) = strip (serve fresh ⟨false, false⟩ N o) := by
  have hsame : Seqlock.served fresh N o = serve fresh ⟨false, false⟩ N o := by
    cases o with
    | addTyped => simp only [Seqlock.served, serve, PathMap.addJudged_eq hL]
    | delete => simp only [Seqlock.served, serve, PathMap.deleteJudged_eq hL]
    | rename => simp only [Seqlock.served, serve, PathMap.renameOver_eq hR hD]
    | _ => rfl
  rw [served_alike fresh fresh' hN o, hsame]

theorem served_refused (fresh fresh' : ℕ) (hN : N.blank = N'.blank) {o : Op Name}
    (hR : o.Refused N) : serve fresh ⟨false, false⟩ N o = (.code (some .EEXIST), N) ∧
      (strip (Seqlock.served fresh' N' o) = (.code (some .ENOENT), N.blank) ∨
        strip (Seqlock.served fresh' N' o) = (.code (some .EINVAL), N.blank)) := by
  cases o with
  | rename src dst =>
    obtain ⟨hleft, hright⟩ := PathMap.renameOver_of_refused hR
    have hal := served_alike fresh fresh' hN (.rename src dst)
    refine ⟨by simp only [serve, hleft], hright.imp (fun h => ?_) fun h => ?_⟩
    · rw [hal, Seqlock.served, h]
      rfl
    · rw [hal, Seqlock.served, h]
      rfl
  | _ => exact hR.elim

theorem served_overDir (fresh fresh' : ℕ) (hN : N.blank = N'.blank) {o : Op Name}
    (hD : o.OverDir N) : serve fresh ⟨false, false⟩ N o = (.code (some .EEXIST), N) ∧
      (Seqlock.served fresh' N' o).1.blank = .code none := by
  cases o with
  | rename src dst =>
    obtain ⟨hleft, hright⟩ := PathMap.renameOver_of_overDir hD
    have hal := congrArg Prod.fst (served_alike fresh fresh' hN (.rename src dst))
    refine ⟨by simp only [serve, hleft], Eq.trans hal ?_⟩
    rw [Seqlock.served, hright]
    rfl
  | _ => exact hD.elim

end Serial

end TrieBenchmark
