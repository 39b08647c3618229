import TrieBenchmark.Seqlock.Machine
import Mathlib.Logic.Equiv.Basic

/-!
The two indexes of the seqlock engine: every live dentry is in the bucket of its parent and name
and in the child list of its parent, and names are unique. What each edit needs to keep that.
-/

namespace TrieBenchmark.Seqlock

open Cache Function Hlist

variable {Name : Type} {d d' : Cache Name}

structure IndexOk (d : Cache Name) : Prop where
  hash : Filed d.hash d.Live d.bucket
  sib : Filed d.sib d.Live d.parent
  unique : ∀ a a', d.Live a → d.Live a' → d.parent a = d.parent a' →
    (d.dentry a).name = (d.dentry a').name → a = a'
  parents : ∀ a < d.fresh, d.parent a < d.fresh
  rootSelf : root < d.fresh ∧ d.parent root = root ∧ (d.dentry root).unhashed = false

theorem childrenRemove_leave {L : Links ℕ ℕ} {live : ℕ → Prop} {key : ℕ → ℕ} {n : ℕ}
    (hL : Filed L live key) (hn : live n) :
    Filed (childrenRemove L n) (fun x => live x ∧ x ≠ n) key :=
  (hL.leave hn).prepublish fun h => h.2 rfl

theorem emptyLinks_filed {live : ℕ → Prop} {key : ℕ → ℕ} (h : ∀ n, ¬ live n) :
    Filed emptyLinks live key :=
  ⟨fun _ => [], ⟨fun _ => ⟨trivial, rfl⟩, fun _ => List.nodup_nil, fun _ _ _ hn => (by cases hn)⟩,
    fun _ n => by simp [h n]⟩

theorem IndexOk.create (bucketOf : ℕ → Name → ℕ) (rootname : Name) :
    IndexOk (dcCreate bucketOf rootname) := by
  have hdead : ∀ a, ¬ (dcCreate bucketOf rootname).Live a := fun a ha =>
    ha.2.1 (Nat.lt_one_iff.mp ha.1)
  exact ⟨emptyLinks_filed hdead, emptyLinks_filed hdead, fun a _ ha => absurd ha (hdead a),
    fun _ _ => Nat.zero_lt_one, Nat.zero_lt_one, rfl, rfl⟩

namespace IndexOk

variable (hI : IndexOk d)
include hI

theorem mem_hashChain (b a : ℕ) : a ∈ d.hashChain b ↔ d.Live a ∧ d.bucket a = b :=
  (hI.hash.chain (fun _ h => h.1) b).2 a

theorem mem_childChain (p a : ℕ) : a ∈ d.childChain p ↔ d.Live a ∧ d.parent a = p :=
  (hI.sib.chain (fun _ h => h.1) p).2 a

theorem nodup_childChain (p : ℕ) : (d.childChain p).Nodup :=
  (hI.sib.chain (fun _ h => h.1) p).1

theorem hasChildren_iff (a : ℕ) : d.hasChildren a = true ↔ ∃ c, d.Live c ∧ d.parent c = a :=
  hI.sib.first_isSome

theorem childLookup_eq_some [DecidableEq Name] {p a : ℕ} {n : Name} :
    d.childLookup p n = some a ↔ d.Live a ∧ d.parent a = p ∧ (d.dentry a).name = n := by
  have hmatch : ∀ {x}, d.named p n x = true ↔
      (d.parent x = p ∧ (d.dentry x).unhashed = false) ∧ (d.dentry x).name = n := by
    intro x
    simp [Cache.named]
  constructor
  · intro hf
    obtain ⟨⟨hp, -⟩, hn⟩ := hmatch.mp (List.find?_some hf)
    exact ⟨((hI.mem_hashChain _ _).mp (List.mem_of_find?_eq_some hf)).1, hp, hn⟩
  · rintro ⟨ha, hp, hn⟩
    have hmem : a ∈ d.hashChain (d.bucketOf p n) := by
      rw [hI.mem_hashChain, Cache.bucket, hp, hn]
      exact ⟨ha, rfl⟩
    cases hf : d.childLookup p n with
    | none =>
      exact absurd (hmatch.mpr ⟨⟨hp, ha.2.2⟩, hn⟩) (List.find?_eq_none.mp hf a hmem)
    | some a' =>
      obtain ⟨⟨hp', -⟩, hn'⟩ := hmatch.mp (List.find?_some hf)
      have ha' := ((hI.mem_hashChain _ _).mp (List.mem_of_find?_eq_some hf)).1
      rw [hI.unique a a' ha ha' (hp.trans hp'.symm) (hn.trans hn'.symm)]

theorem childLookup_eq_none [DecidableEq Name] {p : ℕ} {n : Name} : d.childLookup p n = none ↔
    ∀ a, d.Live a → ¬ (d.parent a = p ∧ (d.dentry a).name = n) := by
  rw [Option.eq_none_iff_forall_ne_some]
  exact forall_congr' fun a => by rw [Ne, hI.childLookup_eq_some, not_and]

theorem childLookup_self [DecidableEq Name] {a : ℕ} (ha : d.Live a) :
    d.childLookup (d.parent a) (d.dentry a).name = some a :=
  hI.childLookup_eq_some.mpr ⟨ha, rfl, rfl⟩

end IndexOk

section Fields

variable (d) (a : ℕ) (f : Dentry Name → Dentry Name)

@[simp] theorem Cache.modify_self : (d.modify a f).dentry a = f (d.dentry a) :=
  update_self ..

theorem Cache.modify_of_ne {x : ℕ} (hx : x ≠ a) : (d.modify a f).dentry x = d.dentry x :=
  update_of_ne hx ..

theorem Cache.link_new (parent id : ℕ) (name : Name) (isdir positive : Bool) :
    (d.link parent name id isdir positive).dentry d.fresh =
      ⟨name, parent, false, !positive, id, isdir⟩ :=
  update_self ..

theorem Cache.link_old (parent id : ℕ) (name : Name) (isdir positive : Bool) {x : ℕ}
    (hx : x ≠ d.fresh) : (d.link parent name id isdir positive).dentry x = d.dentry x :=
  update_of_ne hx ..

theorem Cache.unhash_dentry (x : ℕ) : (d.unhash a).dentry x =
    { d.dentry x with unhashed := if x = a then true else (d.dentry x).unhashed } := by
  unfold Cache.unhash
  rcases eq_or_ne x a with rfl | hx
  · simp
  · simp [modify_of_ne _ _ _ hx, hx]

theorem Cache.relocate_dentry (p p' : ℕ) (n : Name) (x : ℕ) : (d.relocate a p p' n).dentry x =
    if x = a then { d.dentry a with name := n, parent := p' } else d.dentry x := by
  unfold Cache.relocate
  rcases eq_or_ne x a with rfl | hx
  · simp
  · simp [modify_of_ne _ _ _ hx, hx]

theorem Cache.exchange_dentry {b : ℕ} (hab : a ≠ b) (pa pb : ℕ) (na nb : Name) (x : ℕ) :
    (d.exchange a b pa pb na nb).dentry x =
      if x = b then { d.dentry b with name := na, parent := pa }
      else if x = a then { d.dentry a with name := nb, parent := pb } else d.dentry x := by
  unfold Cache.exchange
  rcases eq_or_ne x b with rfl | hxb
  · simp [modify_of_ne _ _ _ hab.symm]
  · rcases eq_or_ne x a with rfl | hxa
    · simp [modify_of_ne _ _ _ hxb, hxb]
    · simp [modify_of_ne _ _ _ hxb, modify_of_ne _ _ _ hxa, hxb, hxa]

end Fields

namespace IndexOk

theorem modify (hI : IndexOk d) (a : ℕ) {f : Dentry Name → Dentry Name}
    (hf : ∀ e, (f e).name = e.name ∧ (f e).parent = e.parent ∧ (f e).unhashed = e.unhashed) :
    IndexOk (d.modify a f) := by
  have hd : ∀ x, ((d.modify a f).dentry x).name = (d.dentry x).name ∧
      (d.modify a f).parent x = d.parent x ∧
      ((d.modify a f).dentry x).unhashed = (d.dentry x).unhashed := by
    intro x
    rw [Cache.parent]
    rcases eq_or_ne x a with rfl | hx
    · rw [modify_self]
      exact hf _
    · rw [modify_of_ne _ _ _ hx]
      exact ⟨rfl, rfl, rfl⟩
  have hlive : ∀ x, (d.modify a f).Live x ↔ d.Live x := by
    intro x
    unfold Cache.Live
    rw [(hd x).2.2]
    rfl
  have hbucket : ∀ x, (d.modify a f).bucket x = d.bucket x := by
    intro x
    unfold Cache.bucket
    rw [(hd x).1, (hd x).2.1]
    rfl
  refine ⟨hI.hash.congr hlive fun x _ => hbucket x, hI.sib.congr hlive fun x _ => (hd x).2.1, ?_,
    fun x hx => ?_, ?_⟩
  · intro x y hx hy hp hn
    rw [(hd x).2.1, (hd y).2.1] at hp
    rw [(hd x).1, (hd y).1] at hn
    exact hI.unique x y ((hlive x).mp hx) ((hlive y).mp hy) hp hn
  · rw [(hd x).2.1]
    exact hI.parents x hx
  · rw [(hd root).2.1, (hd root).2.2]
    exact hI.rootSelf

section Edits

variable [DecidableEq Name] {a b parent id : ℕ} {name : Name} {isdir positive : Bool}

omit [DecidableEq Name] in
theorem link_live (hI : IndexOk d) (x : ℕ) :
    (d.link parent name id isdir positive).Live x ↔ d.Live x ∨ x = d.fresh := by
  have hpos : d.fresh ≠ root := Nat.ne_of_gt hI.rootSelf.1
  unfold Cache.Live
  rcases eq_or_ne x d.fresh with rfl | hx
  · simp [Cache.link, hpos]
  · rw [link_old _ _ _ _ _ _ hx]
    have hlt : x < d.fresh + 1 ↔ x < d.fresh := by omega
    simp [Cache.link, hx, hlt]

theorem link (hI : IndexOk d) (hparent : parent < d.fresh)
    (hfree : d.childLookup parent name = none) :
    IndexOk (d.link parent name id isdir positive) := by
  have hdead : ¬ d.Live d.fresh := fun h => Nat.lt_irrefl _ h.1
  have hlive : ∀ x, (d.link parent name id isdir positive).Live x ↔ d.Live x ∨ x = d.fresh :=
    hI.link_live
  have hfree := hI.childLookup_eq_none.mp hfree
  have hne : ∀ {x}, d.Live x → x ≠ d.fresh := fun h => Nat.ne_of_lt h.1
  have hparent' : (d.link parent name id isdir positive).parent =
      update d.parent d.fresh parent := by
    funext x
    unfold Cache.parent
    rcases eq_or_ne x d.fresh with rfl | hx
    · rw [link_new, update_self]
    · rw [link_old _ _ _ _ _ _ hx, update_of_ne hx]
  have hbucket' : (d.link parent name id isdir positive).bucket =
      update d.bucket d.fresh (d.bucketOf parent name) := by
    funext x
    unfold Cache.bucket
    rw [hparent']
    rcases eq_or_ne x d.fresh with rfl | hx
    · rw [link_new, update_self, update_self]
      rfl
    · rw [link_old _ _ _ _ _ _ hx, update_of_ne hx, update_of_ne hx]
      rfl
  refine ⟨?_, ?_, ?_, ?_, ?_⟩
  · rw [hbucket']
    exact (hI.hash.enter hdead _).congr hlive fun _ _ => rfl
  · rw [hparent']
    exact (hI.sib.enter hdead _).congr hlive fun _ _ => rfl
  · intro x y hx hy hp hn
    rw [hparent'] at hp
    rcases (hlive x).mp hx with hx | rfl <;> rcases (hlive y).mp hy with hy | rfl
    · rw [update_of_ne (hne hx), update_of_ne (hne hy)] at hp
      rw [link_old _ _ _ _ _ _ (hne hx), link_old _ _ _ _ _ _ (hne hy)] at hn
      exact hI.unique x y hx hy hp hn
    · rw [update_of_ne (hne hx), update_self] at hp
      rw [link_old _ _ _ _ _ _ (hne hx), link_new] at hn
      exact absurd ⟨hp, hn⟩ (hfree x hx)
    · rw [update_of_ne (hne hy), update_self] at hp
      rw [link_old _ _ _ _ _ _ (hne hy), link_new] at hn
      exact absurd ⟨hp.symm, hn.symm⟩ (hfree y hy)
    · rfl
  · intro x hx
    have hx : x < d.fresh + 1 := hx
    show _ < d.fresh + 1
    rw [hparent']
    rcases eq_or_ne x d.fresh with rfl | hne
    · rw [update_self]
      omega
    · rw [update_of_ne hne]
      have := hI.parents x (by omega)
      omega
  · have hroot : root ≠ d.fresh := Nat.ne_of_lt hI.rootSelf.1
    rw [hparent', update_of_ne hroot, link_old _ _ _ _ _ _ hroot]
    exact ⟨Nat.lt_succ_of_lt hI.rootSelf.1, hI.rootSelf.2⟩

omit [DecidableEq Name] in
theorem unhash_live (x : ℕ) : (d.unhash a).Live x ↔ d.Live x ∧ x ≠ a := by
  unfold Cache.Live
  rw [unhash_dentry]
  show x < d.fresh ∧ _ ↔ _
  rcases eq_or_ne x a with rfl | hx
  · simp
  · simp [hx]

omit [DecidableEq Name] in
theorem unhash (hI : IndexOk d) (ha : d.Live a) : IndexOk (d.unhash a) := by
  have hparent : (d.unhash a).parent = d.parent := by
    funext x
    rw [Cache.parent, unhash_dentry, Cache.parent]
  have hbucket : (d.unhash a).bucket = d.bucket := by
    funext x
    unfold Cache.bucket
    rw [hparent, unhash_dentry]
    rfl
  refine ⟨?_, ?_, ?_, ?_, ?_⟩
  · rw [hbucket]
    exact (hI.hash.leave ha).congr unhash_live fun _ _ => rfl
  · rw [hparent]
    exact (childrenRemove_leave hI.sib ha).congr unhash_live fun _ _ => rfl
  · intro x y hx hy hp hn
    rw [hparent] at hp
    rw [unhash_dentry, unhash_dentry] at hn
    exact hI.unique x y ((unhash_live x).mp hx).1 ((unhash_live y).mp hy).1 hp hn
  · rw [hparent]
    exact hI.parents
  · rw [hparent, unhash_dentry, if_neg ha.2.1.symm]
    exact hI.rootSelf

omit [DecidableEq Name] in
theorem relocate_live {p p' : ℕ} {n : Name} (x : ℕ) :
    (d.relocate a p p' n).Live x ↔ d.Live x := by
  unfold Cache.Live
  rw [relocate_dentry]
  rcases eq_or_ne x a with rfl | hx
  · rw [if_pos rfl]
    rfl
  · rw [if_neg hx]
    rfl

theorem relocate (hI : IndexOk d) (ha : d.Live a) (hparent : parent < d.fresh)
    (hfree : d.childLookup parent name = none) :
    IndexOk (d.relocate a (d.parent a) parent name) := by
  have hfree := hI.childLookup_eq_none.mp hfree
  have hparent' : (d.relocate a (d.parent a) parent name).parent =
      update d.parent a parent := by
    funext x
    rw [Cache.parent, relocate_dentry]
    rcases eq_or_ne x a with rfl | hx
    · rw [if_pos rfl, update_self]
    · rw [if_neg hx, update_of_ne hx]
      rfl
  have hbucket' : (d.relocate a (d.parent a) parent name).bucket =
      update d.bucket a (d.bucketOf parent name) := by
    funext x
    unfold Cache.bucket
    rw [hparent', relocate_dentry]
    rcases eq_or_ne x a with rfl | hx
    · rw [if_pos rfl, update_self, update_self]
      rfl
    · rw [if_neg hx, update_of_ne hx, update_of_ne hx]
      rfl
  have hlive : ∀ x, (d.relocate a (d.parent a) parent name).Live x ↔
      (d.Live x ∧ x ≠ a) ∨ x = a := by
    intro x
    rw [relocate_live]
    rcases eq_or_ne x a with rfl | hx
    · simp [ha]
    · simp [hx]
  refine ⟨?_, ?_, ?_, ?_, ?_⟩
  · rw [hbucket']
    exact ((hI.hash.leave ha).enter (fun h => h.2 rfl) _).congr hlive fun _ _ => rfl
  · rw [hparent']
    show Filed (if d.parent a ≠ parent then _ else d.sib) _ _
    split_ifs with hp
    · exact ((childrenRemove_leave hI.sib ha).enter (fun h => h.2 rfl) _).congr hlive
        fun _ _ => rfl
    · rw [not_not] at hp
      rw [← hp, update_eq_self]
      exact hI.sib.congr relocate_live fun _ _ => rfl
  · intro x y hx hy hp hn
    rw [relocate_live] at hx hy
    rw [hparent'] at hp
    rw [relocate_dentry, relocate_dentry] at hn
    rcases eq_or_ne x a with rfl | hxa <;> rcases eq_or_ne y x with rfl | hyx
    · rfl
    · rw [update_self, update_of_ne hyx] at hp
      rw [if_pos rfl, if_neg hyx] at hn
      exact absurd ⟨hp.symm, hn.symm⟩ (hfree y hy)
    · rfl
    · rcases eq_or_ne y a with rfl | hya
      · rw [update_self, update_of_ne hxa] at hp
        rw [if_pos rfl, if_neg hxa] at hn
        exact absurd ⟨hp, hn⟩ (hfree x hx)
      · rw [update_of_ne hxa, update_of_ne hya] at hp
        rw [if_neg hxa, if_neg hya] at hn
        exact hI.unique x y hx hy hp hn
  · intro x hx
    show _ < d.fresh
    rw [hparent']
    rcases eq_or_ne x a with rfl | hne
    · rwa [update_self]
    · rw [update_of_ne hne]
      exact hI.parents x hx
  · have hroot : root ≠ a := ha.2.1.symm
    rw [hparent', update_of_ne hroot, relocate_dentry, if_neg hroot]
    exact hI.rootSelf

omit [DecidableEq Name] in
theorem exchange_place {pa pb : ℕ} {na nb : Name} (hab : a ≠ b) (hpa : d.parent a = pa)
    (hpb : d.parent b = pb) (hna : (d.dentry a).name = na) (hnb : (d.dentry b).name = nb) (x : ℕ) :
    (d.exchange a b pa pb na nb).parent x = d.parent (Equiv.swap a b x) ∧
      ((d.exchange a b pa pb na nb).dentry x).name = (d.dentry (Equiv.swap a b x)).name := by
  rw [Cache.parent, exchange_dentry _ _ hab, Equiv.swap_apply_def]
  rcases eq_or_ne x b with rfl | hxb
  · rw [if_pos rfl, if_neg hab.symm, if_pos rfl]
    exact ⟨hpa.symm, hna.symm⟩
  · rw [if_neg hxb, if_neg hxb]
    rcases eq_or_ne x a with rfl | hxa
    · rw [if_pos rfl, if_pos rfl]
      exact ⟨hpb.symm, hnb.symm⟩
    · rw [if_neg hxa, if_neg hxa]
      exact ⟨rfl, rfl⟩

omit [DecidableEq Name] in
theorem exchange_live {pa pb : ℕ} {na nb : Name} (hab : a ≠ b) (x : ℕ) :
    (d.exchange a b pa pb na nb).Live x ↔ d.Live x := by
  unfold Cache.Live
  rw [exchange_dentry _ _ hab]
  rcases eq_or_ne x b with rfl | hxb
  · rw [if_pos rfl]
    rfl
  · rw [if_neg hxb]
    rcases eq_or_ne x a with rfl | hxa
    · rw [if_pos rfl]
      rfl
    · rw [if_neg hxa]
      rfl

omit [DecidableEq Name] in
theorem exchange (hI : IndexOk d) {pa pb : ℕ} {na nb : Name} (ha : d.Live a) (hb : d.Live b)
    (hab : a ≠ b) (hpa : d.parent a = pa) (hpb : d.parent b = pb) (hna : (d.dentry a).name = na)
    (hnb : (d.dentry b).name = nb) : IndexOk (d.exchange a b pa pb na nb) := by
  have hplace := exchange_place hab hpa hpb hna hnb
  have hlive : ∀ x, (d.exchange a b pa pb na nb).Live x ↔
      (((d.Live x ∧ x ≠ a) ∧ x ≠ b) ∨ x = a) ∨ x = b := by
    intro x
    rw [exchange_live hab]
    rcases eq_or_ne x a with rfl | hxa
    · simp [ha]
    · rcases eq_or_ne x b with rfl | hxb
      · simp [hb]
      · simp [hxa, hxb]
  have hswap : ∀ (key : ℕ → ℕ) x, key (Equiv.swap a b x) =
      update (update key a (key b)) b (key a) x := by
    intro key x
    rw [Equiv.swap_apply_def, update_apply, update_apply]
    rcases eq_or_ne x b with rfl | hxb
    · rw [if_neg hab.symm, if_pos rfl, if_pos rfl]
    · rw [if_neg hxb, if_neg hxb]
      split_ifs <;> rfl
  have hlive_swap : ∀ {x}, d.Live x → d.Live (Equiv.swap a b x) := by
    intro x hx
    rw [Equiv.swap_apply_def]
    split_ifs
    · exact hb
    · exact ha
    · exact hx
  refine ⟨?_, ?_, ?_, ?_, ?_⟩
  · have hin := ((((hI.hash.leave ha).leave ⟨hb, hab.symm⟩).enter (fun h => h.1.2 rfl)
      (d.bucketOf pb nb)).enter (fun h => h.elim (fun h => h.2 rfl) (hab ·.symm))
      (d.bucketOf pa na))
    refine hin.congr hlive fun x _ => ?_
    have hbucket : (d.exchange a b pa pb na nb).bucket x = d.bucket (Equiv.swap a b x) := by
      unfold Cache.bucket
      rw [(hplace x).1, (hplace x).2]
      rfl
    rw [hbucket, hswap d.bucket, ← hpa, ← hpb, ← hna, ← hnb]
    rfl
  · show Filed (if pa ≠ pb then _ else d.sib) _ _
    split_ifs with hp
    · have hin := (((childrenRemove_leave (childrenRemove_leave hI.sib ha) ⟨hb, hab.symm⟩).enter
        (fun h => h.1.2 rfl) pb).enter (fun h => h.elim (fun h => h.2 rfl) (hab ·.symm)) pa)
      refine hin.congr hlive fun x _ => ?_
      rw [(hplace x).1, hswap d.parent, hpa, hpb]
    · rw [not_not] at hp
      refine hI.sib.congr (exchange_live hab) fun x _ => ?_
      rw [(hplace x).1, Equiv.swap_apply_def]
      split_ifs with hxa hxb
      · rw [hxa, hpa, hpb, hp]
      · rw [hxb, hpa, hpb, hp]
      · rfl
  · intro x y hx hy hp hn
    rw [exchange_live hab] at hx hy
    rw [(hplace x).1, (hplace y).1] at hp
    rw [(hplace x).2, (hplace y).2] at hn
    exact (Equiv.swap a b).injective (hI.unique _ _ (hlive_swap hx) (hlive_swap hy) hp hn)
  · intro x hx
    show _ < d.fresh
    rw [(hplace x).1, Equiv.swap_apply_def]
    split_ifs
    · exact hI.parents b hb.1
    · exact hI.parents a ha.1
    · exact hI.parents x hx
  · rw [(hplace root).1, Equiv.swap_apply_of_ne_of_ne ha.2.1.symm hb.2.1.symm,
      exchange_dentry _ _ hab, if_neg hb.2.1.symm, if_neg ha.2.1.symm]
    exact hI.rootSelf

theorem dMove (hI : IndexOk d) {target : Option ℕ} (ha : d.Live a) (hparent : parent < d.fresh)
    (htarget : d.childLookup parent name = target) (hne : target ≠ some a) :
    IndexOk (d.dMove a (d.parent a) parent name target) := by
  cases target with
  | none => exact hI.relocate ha hparent htarget
  | some t =>
    obtain ⟨ht, hp, hn⟩ := hI.childLookup_eq_some.mp htarget
    have hI' := hI.unhash ht
    have hta : a ≠ t := fun he => hne (he ▸ rfl)
    have hpa : (d.unhash t).parent a = d.parent a := by
      rw [Cache.parent, unhash_dentry, Cache.parent]
    have hfree : (d.unhash t).childLookup parent name = none := by
      rw [hI'.childLookup_eq_none]
      rintro x hx ⟨hxp, hxn⟩
      obtain ⟨hx, hxt⟩ := (unhash_live x).mp hx
      rw [Cache.parent, unhash_dentry] at hxp
      rw [unhash_dentry] at hxn
      exact hxt (hI.unique x t hx ht (hxp.trans hp.symm) (hxn.trans hn.symm))
    have hmove := hI'.relocate ((unhash_live a).mpr ⟨ha, hta⟩) hparent hfree
    rw [hpa] at hmove
    exact hmove

end Edits

end IndexOk

end TrieBenchmark.Seqlock
