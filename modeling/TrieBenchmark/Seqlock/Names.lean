import TrieBenchmark.Seqlock.Index
import TrieBenchmark.Listing

/-!
The map from paths to objects that the index of the seqlock engine holds, how each edit changes
it, and what `dc_readdir` and `dc_walk` read of it.
-/

namespace TrieBenchmark.Seqlock

open Cache Namei Serial

variable {Name : Type} [DecidableEq Name] {d d' : Cache Name}

namespace Cache

def obj (d : Cache Name) (a : ℕ) : Obj :=
  ⟨a, (d.dentry a).isdir, (d.dentry a).neg, (d.dentry a).id⟩

def resolve (d : Cache Name) (path : List Name) : Option ℕ :=
  Namei.resolve d.childLookup root path

def names (d : Cache Name) : PathMap Name :=
  pathMap d.childLookup d.obj root

def tree (d : Cache Name) : Serial.Tree Name where
  child := d.childLookup
  kids p := (d.childChain p).map fun a => (a, (d.dentry a).name)
  parent := d.parent
  obj := d.obj

def dcReaddir (d : Cache Name) (path : List Name) : Option (List (ℕ × Name)) :=
  d.tree.readdir root path

def dcWalk (d : Cache Name) : List (ℕ × List Name) :=
  d.tree.walk root

end Cache

namespace IndexOk

variable {p a b parent id : ℕ} {n name : Name} {isdir positive : Bool} {dir dir' path : List Name}

theorem listed (hI : IndexOk d) : d.tree.Listed := by
  intro h c n
  show _ ↔ d.childLookup h n = some c
  rw [hI.childLookup_eq_some]
  simp only [Cache.tree, List.mem_map, hI.mem_childChain, Prod.mk.injEq]
  constructor
  · rintro ⟨a, ⟨hl, hp⟩, rfl, hn⟩
    exact ⟨hl, hp, hn⟩
  · rintro ⟨hl, hp, hn⟩
    exact ⟨c, ⟨hl, hp⟩, rfl, hn⟩

theorem kids_nodup (hI : IndexOk d) (p : ℕ) : (d.tree.kids p).Nodup :=
  (hI.nodup_childChain p).map fun _ _ he => congrArg Prod.fst he

theorem rooted (hI : IndexOk d) : Rooted d.childLookup root := by
  constructor
  · intro v v' n n' h hv hv'
    obtain ⟨-, rfl, rfl⟩ := hI.childLookup_eq_some.mp hv
    obtain ⟨-, rfl, rfl⟩ := hI.childLookup_eq_some.mp hv'
    exact ⟨rfl, rfl⟩
  · intro v n hv
    exact (hI.childLookup_eq_some.mp hv).1.2.1 rfl

theorem resolve_cases (hI : IndexOk d) (hr : d.resolve path = some a) : a = root ∨ d.Live a := by
  induction path using List.reverseRecOn with
  | nil => exact .inl (Option.some.inj hr).symm
  | append_singleton =>
    rw [Cache.resolve, resolve_concat] at hr
    obtain ⟨v, -, hv⟩ := Option.bind_eq_some_iff.mp hr
    exact .inr (hI.childLookup_eq_some.mp hv).1

theorem resolve_lt (hI : IndexOk d) (hr : d.resolve path = some a) : a < d.fresh := by
  rcases hI.resolve_cases hr with rfl | hl
  · exact hI.rootSelf.1
  · exact hl.1

theorem sameObjs (hI : IndexOk d) (hobj : ∀ a < d.fresh, d'.obj a = d.obj a) :
    SameObjs d.childLookup root d.obj d'.obj := fun _ _ hr => hobj _ (hI.resolve_lt hr)

theorem childLookup_congr (hI : IndexOk d) (hI' : IndexOk d')
    (hb : ∀ x, d'.Live x ∧ d'.parent x = p ∧ (d'.dentry x).name = n ↔
      d.Live x ∧ d.parent x = p ∧ (d.dentry x).name = n) :
    d'.childLookup p n = d.childLookup p n := by
  apply Option.ext
  intro x
  rw [hI'.childLookup_eq_some, hI.childLookup_eq_some, hb]

theorem names_link (hI : IndexOk d) (hdir : d.resolve dir = some parent)
    (hfree : d.childLookup parent name = none) :
    (d.link parent name id isdir positive).names =
      d.names.bind (dir ++ [name]) ⟨d.fresh, isdir, !positive, id⟩ := by
  have hlt := hI.resolve_lt hdir
  have hI' : IndexOk (d.link parent name id isdir positive) := hI.link hlt hfree
  have hlive : ∀ x, (d.link parent name id isdir positive).Live x ↔ d.Live x ∨ x = d.fresh :=
    hI.link_live
  have hold : ∀ {x}, x ≠ d.fresh →
      (d.link parent name id isdir positive).dentry x = d.dentry x := fun hx =>
    link_old _ _ _ _ _ _ hx
  have hnew := d.link_new parent id name isdir positive
  have hkeep : ∀ v n, (v, n) ≠ (parent, name) →
      (d.link parent name id isdir positive).childLookup v n = d.childLookup v n := by
    intro v n hne
    refine hI.childLookup_congr hI' fun x => ?_
    rw [hlive, Cache.parent]
    rcases eq_or_ne x d.fresh with rfl | hx
    · rw [hnew]
      constructor
      · rintro ⟨-, rfl, rfl⟩
        exact absurd rfl hne
      · exact fun h => absurd h.1.1 (Nat.lt_irrefl _)
    · rw [hold hx]
      simp only [hx, or_false]
      rfl
  have hbind : (d.link parent name id isdir positive).childLookup parent name = some d.fresh := by
    rw [hI'.childLookup_eq_some, hlive, Cache.parent, hnew]
    exact ⟨.inr rfl, rfl, rfl⟩
  have hleaf : ∀ n, (d.link parent name id isdir positive).childLookup d.fresh n = none := by
    intro n
    rw [hI'.childLookup_eq_none]
    rintro x hx ⟨hp, -⟩
    have hx : x < d.fresh + 1 := hx.1
    rw [Cache.parent] at hp
    rcases eq_or_ne x d.fresh with rfl | hne
    · rw [hnew] at hp
      exact Nat.ne_of_lt hlt hp
    · rw [hold hne] at hp
      exact Nat.ne_of_lt (hI.parents x (by omega)) hp
  have hobj : (d.link parent name id isdir positive).obj d.fresh =
      ⟨d.fresh, isdir, !positive, id⟩ := by
    rw [Cache.obj, hnew]
  rw [← hobj]
  refine pathMap_bind hI.rooted (hI.sameObjs fun x hx => ?_) hdir hkeep hfree hbind hleaf
  rw [Cache.obj, hold (Nat.ne_of_lt hx), Cache.obj]

theorem unhash_childLookup (hI : IndexOk d) (ha : d.Live a) (v : ℕ) (n : Name) :
    (d.unhash a).childLookup v n =
      if d.parent a = v ∧ (d.dentry a).name = n then none else d.childLookup v n := by
  have hI' := hI.unhash ha
  have hkey : ∀ x, ((d.unhash a).Live x ∧ (d.unhash a).parent x = v ∧
      ((d.unhash a).dentry x).name = n ↔
        (d.Live x ∧ x ≠ a) ∧ d.parent x = v ∧ (d.dentry x).name = n) := by
    intro x
    rw [unhash_live, Cache.parent, unhash_dentry]
    rfl
  split_ifs with hat
  · rw [hI'.childLookup_eq_none]
    intro x hx hk
    obtain ⟨⟨hx, hxa⟩, hp, hn⟩ := (hkey x).mp ⟨hx, hk⟩
    exact hxa (hI.unique x a hx ha (hp.trans hat.1.symm) (hn.trans hat.2.symm))
  · refine hI.childLookup_congr hI' fun x => ?_
    rw [hkey]
    constructor
    · exact fun h => ⟨h.1.1, h.2⟩
    · rintro ⟨hx, hk⟩
      refine ⟨⟨hx, ?_⟩, hk⟩
      rintro rfl
      exact hat hk

theorem names_unhash (hI : IndexOk d) (ha : d.Live a) (hdir : d.resolve dir = some (d.parent a)) :
    (d.unhash a).names = d.names.prune (dir ++ [(d.dentry a).name]) := by
  refine pathMap_prune hI.rooted (hI.sameObjs fun x _ => ?_) hdir (fun v n hne => ?_) ?_
  · rw [Cache.obj, unhash_dentry, Cache.obj]
  · rw [hI.unhash_childLookup ha, if_neg]
    rintro ⟨rfl, rfl⟩
    exact hne rfl
  · rw [hI.unhash_childLookup ha, if_pos ⟨rfl, rfl⟩]

theorem relocate_childLookup (hI : IndexOk d) (ha : d.Live a) (hparent : parent < d.fresh)
    (hfree : d.childLookup parent name = none) (v : ℕ) (n : Name) :
    (d.relocate a (d.parent a) parent name).childLookup v n =
      if parent = v ∧ name = n then some a
      else if d.parent a = v ∧ (d.dentry a).name = n then none else d.childLookup v n := by
  have hI' := hI.relocate ha hparent hfree
  have hkey : ∀ x, ((d.relocate a (d.parent a) parent name).parent x =
      if x = a then parent else d.parent x) ∧
      ((d.relocate a (d.parent a) parent name).dentry x).name =
        if x = a then name else (d.dentry x).name := by
    intro x
    rw [Cache.parent, relocate_dentry]
    split_ifs <;> exact ⟨rfl, rfl⟩
  split_ifs with hnew hold
  · rw [hI'.childLookup_eq_some, relocate_live, (hkey a).1, (hkey a).2, if_pos rfl, if_pos rfl]
    exact ⟨ha, hnew⟩
  · rw [hI'.childLookup_eq_none]
    intro x hx hk
    rw [relocate_live] at hx
    rw [(hkey x).1, (hkey x).2] at hk
    rcases eq_or_ne x a with rfl | hxa
    · rw [if_pos rfl, if_pos rfl] at hk
      exact hnew hk
    · rw [if_neg hxa, if_neg hxa] at hk
      exact hxa (hI.unique x a hx ha (hk.1.trans hold.1.symm) (hk.2.trans hold.2.symm))
  · refine hI.childLookup_congr hI' fun x => ?_
    rw [relocate_live, (hkey x).1, (hkey x).2]
    rcases eq_or_ne x a with rfl | hxa
    · rw [if_pos rfl, if_pos rfl]
      exact ⟨fun h => absurd h.2 hnew, fun h => absurd h.2 hold⟩
    · rw [if_neg hxa, if_neg hxa]

theorem dMove_childLookup (hI : IndexOk d) {target : Option ℕ} (ha : d.Live a)
    (hparent : parent < d.fresh) (htarget : d.childLookup parent name = target)
    (hne : target ≠ some a) (v : ℕ) (n : Name) :
    (d.dMove a (d.parent a) parent name target).childLookup v n =
      if parent = v ∧ name = n then some a
      else if d.parent a = v ∧ (d.dentry a).name = n then none else d.childLookup v n := by
  cases target with
  | none => exact hI.relocate_childLookup ha hparent htarget v n
  | some t =>
    obtain ⟨ht, rfl, rfl⟩ := hI.childLookup_eq_some.mp htarget
    have hta : a ≠ t := fun he => hne (he ▸ rfl)
    have hpa : (d.unhash t).parent a = d.parent a := by
      rw [Cache.parent, unhash_dentry, Cache.parent]
    have hna : ((d.unhash t).dentry a).name = (d.dentry a).name := by
      rw [unhash_dentry]
    have hfree : (d.unhash t).childLookup (d.parent t) (d.dentry t).name = none := by
      rw [hI.unhash_childLookup ht, if_pos ⟨rfl, rfl⟩]
    have hmove := (hI.unhash ht).relocate_childLookup ((unhash_live a).mpr ⟨ha, hta⟩) hparent
      hfree v n
    rw [hpa, hna, hI.unhash_childLookup ht] at hmove
    rw [Cache.dMove, hmove]
    split_ifs <;> rfl

theorem names_dMove (hI : IndexOk d) {target : Option ℕ} (ha : d.Live a)
    (htarget : d.childLookup parent name = target) (hne : target ≠ some a)
    (hdir : d.resolve dir = some (d.parent a)) (hdir' : d.resolve dir' = some parent)
    (hloop : ¬ dir ++ [(d.dentry a).name] <+: dir') :
    (d.dMove a (d.parent a) parent name target).names =
      d.names.graft (dir ++ [(d.dentry a).name]) (dir' ++ [name]) := by
  have hbind := hI.dMove_childLookup ha (hI.resolve_lt hdir') htarget hne
  have hapart : ¬ (parent = d.parent a ∧ name = (d.dentry a).name) := by
    rintro ⟨rfl, rfl⟩
    exact hne (htarget.symm.trans (hI.childLookup_self ha))
  refine pathMap_graft hI.rooted (hI.sameObjs fun x _ => ?_) hdir hdir' (fun v n h₁ h₂ => ?_)
    (hI.childLookup_self ha) ?_ ?_ hloop
  · have hrel : ∀ d : Cache Name, (d.relocate a (d.parent a) parent name).obj x = d.obj x := by
      intro d
      rw [Cache.obj, relocate_dentry, Cache.obj]
      rcases eq_or_ne x a with rfl | hx
      · rw [if_pos rfl]
      · rw [if_neg hx]
    cases target with
    | none => exact hrel d
    | some t =>
      have hpa : d.parent a = (d.unhash t).parent a := by
        rw [Cache.parent, Cache.parent, unhash_dentry]
      rw [Cache.dMove, hpa, hrel, Cache.obj, unhash_dentry, Cache.obj]
  · rw [hbind, if_neg, if_neg]
    · rintro ⟨rfl, rfl⟩
      exact h₁ rfl
    · rintro ⟨rfl, rfl⟩
      exact h₂ rfl
  · rw [hbind, if_neg hapart, if_pos ⟨rfl, rfl⟩]
  · rw [hbind, if_pos ⟨rfl, rfl⟩]

theorem names_exchange (hI : IndexOk d) (ha : d.Live a) (hb : d.Live b) (hab : a ≠ b)
    {pa pb : ℕ} {na nb : Name} (hpa : d.parent a = pa) (hpb : d.parent b = pb)
    (hna : (d.dentry a).name = na) (hnb : (d.dentry b).name = nb) (hdir : d.resolve dir = some pa)
    (hdir' : d.resolve dir' = some pb) (hloop : ¬ dir ++ [na] <+: dir')
    (hloop' : ¬ dir' ++ [nb] <+: dir) :
    (d.exchange a b pa pb na nb).names = d.names.swap (dir ++ [na]) (dir' ++ [nb]) := by
  have hI' := hI.exchange ha hb hab hpa hpb hna hnb
  have hplace := exchange_place hab hpa hpb hna hnb
  have hpatha : d.resolve (dir ++ [na]) = some a := by
    rw [Cache.resolve, resolve_concat, ← Cache.resolve, hdir, Option.bind_some, ← hpa, ← hna]
    exact hI.childLookup_self ha
  have hpathb : d.resolve (dir' ++ [nb]) = some b := by
    rw [Cache.resolve, resolve_concat, ← Cache.resolve, hdir', Option.bind_some, ← hpb, ← hnb]
    exact hI.childLookup_self hb
  have hbound : ∀ {v n x}, (d.exchange a b pa pb na nb).childLookup v n = some x ↔
      d.Live x ∧ d.parent (Equiv.swap a b x) = v ∧ (d.dentry (Equiv.swap a b x)).name = n := by
    intro v n x
    rw [hI'.childLookup_eq_some, exchange_live hab, (hplace x).1, (hplace x).2]
  have hother : ∀ {x}, x ≠ a → x ≠ b → Equiv.swap a b x = x := Equiv.swap_apply_of_ne_of_ne
  refine pathMap_swap hI.rooted (hI.sameObjs fun x _ => ?_) hdir hdir' (fun v n h₁ h₂ => ?_)
    (hI.childLookup_eq_some.mpr ⟨ha, hpa, hna⟩) (hI.childLookup_eq_some.mpr ⟨hb, hpb, hnb⟩)
    (hbound.mpr ⟨hb, ?_⟩) (hbound.mpr ⟨ha, ?_⟩) ?_ hloop hloop'
  · rw [Cache.obj, exchange_dentry _ _ hab, Cache.obj]
    rcases eq_or_ne x b with rfl | hxb
    · rw [if_pos rfl]
    · rw [if_neg hxb]
      rcases eq_or_ne x a with rfl | hxa
      · rw [if_pos rfl]
      · rw [if_neg hxa]
  · apply Option.ext
    intro x
    rw [hbound, hI.childLookup_eq_some]
    rcases eq_or_ne x a with rfl | hxa
    · rw [Equiv.swap_apply_left, hpa, hpb, hna, hnb]
      exact ⟨fun h => absurd (Prod.ext h.2.1.symm h.2.2.symm) h₂,
        fun h => absurd (Prod.ext h.2.1.symm h.2.2.symm) h₁⟩
    · rcases eq_or_ne x b with rfl | hxb
      · rw [Equiv.swap_apply_right, hpa, hpb, hna, hnb]
        exact ⟨fun h => absurd (Prod.ext h.2.1.symm h.2.2.symm) h₁,
          fun h => absurd (Prod.ext h.2.1.symm h.2.2.symm) h₂⟩
      · rw [hother hxa hxb]
  · rw [Equiv.swap_apply_right]
    exact ⟨hpa, hna⟩
  · rw [Equiv.swap_apply_left]
    exact ⟨hpb, hnb⟩
  · intro he
    rw [he, hpathb] at hpatha
    exact hab (Option.some.inj hpatha).symm

theorem names_set (hI : IndexOk d) {f : Dentry Name → Dentry Name} (hr : d.resolve path = some a)
    (hf : ∀ e, (f e).name = e.name ∧ (f e).parent = e.parent ∧ (f e).unhashed = e.unhashed) :
    (d.modify a f).names = d.names.bind path ((d.modify a f).obj a) := by
  have hd : ∀ x, ((d.modify a f).dentry x).name = (d.dentry x).name ∧
      (d.modify a f).parent x = d.parent x ∧ ((d.modify a f).Live x ↔ d.Live x) := by
    intro x
    rw [Cache.parent, Cache.Live]
    rcases eq_or_ne x a with rfl | hx
    · rw [modify_self, (hf _).1, (hf _).2.1, (hf _).2.2]
      exact ⟨rfl, rfl, Iff.rfl⟩
    · rw [modify_of_ne _ _ _ hx]
      exact ⟨rfl, rfl, Iff.rfl⟩
  refine pathMap_set hI.rooted (fun v n => ?_) hr fun x hx => ?_
  · refine hI.childLookup_congr (hI.modify a hf) fun x => ?_
    rw [(hd x).1, (hd x).2.1, (hd x).2.2]
  · rw [Cache.obj, modify_of_ne _ _ _ hx, Cache.obj]

theorem names_setPositive (hI : IndexOk d) (hr : d.resolve path = some a) :
    (d.setPositive a id).names = d.names.bind path { d.obj a with neg := false, id := id } := by
  have hset : (d.setPositive a id).names = d.names.bind path ((d.setPositive a id).obj a) :=
    hI.names_set hr fun _ => ⟨rfl, rfl, rfl⟩
  rw [hset, Cache.obj, Cache.setPositive, modify_self]
  rfl

theorem names_setNegative (hI : IndexOk d) (hr : d.resolve path = some a) :
    (d.setNegative a).names = d.names.bind path { d.obj a with neg := true } := by
  have hset : (d.setNegative a).names = d.names.bind path ((d.setNegative a).obj a) :=
    hI.names_set hr fun _ => ⟨rfl, rfl, rfl⟩
  rw [hset, Cache.obj, Cache.setNegative, modify_self]
  rfl

end IndexOk

end TrieBenchmark.Seqlock
