import TrieBenchmark.Txn.Binding
import TrieBenchmark.Naming

/-!
The map from paths to objects that the name index of the lock-free engine holds, and how each
commit edits it.
-/

namespace TrieBenchmark.Txn

open Cache Edits Namei Serial

variable {Name : Type} [DecidableEq Name] {d d' : Cache Name} {arm : Arm}

namespace Cache

def obj (d : Cache Name) (h : ℕ) : Obj :=
  ⟨h, (d.dentry h).isdir, (d.dentry h).neg, (d.dentry h).id⟩

def resolve (d : Cache Name) (path : List Name) : Option ℕ :=
  Namei.resolve d.childLookup root path

def names (d : Cache Name) : PathMap Name :=
  pathMap d.childLookup d.obj root

end Cache

section Bindings

variable {p h : ℕ} {n : Name}

theorem childLookup_eq_none (hI : IndexOk d) : d.childLookup p n = none ↔
    ∀ a, d.linked a → ¬ ((d.dentry a).iparent = p ∧ (d.dentry a).iname = n) := by
  rw [Cache.childLookup, Option.map_eq_none_iff, hI.findTop_eq_none]

theorem childLookup_of_linked (hI : IndexOk d) {T : ℕ} (hT : d.linked T) :
    d.childLookup (d.dentry T).iparent (d.dentry T).iname = some (d.hostOf T) :=
  (childLookup_eq_some hI).mpr ⟨T, hT, rfl, rfl, rfl⟩

theorem childLookup_congr (hI : IndexOk d) (hI' : IndexOk d')
    (hb : ∀ T, d'.linked T ∧ (d'.dentry T).iparent = p ∧ (d'.dentry T).iname = n ↔
      d.linked T ∧ (d.dentry T).iparent = p ∧ (d.dentry T).iname = n)
    (hhost : ∀ T, d.linked T → d'.hostOf T = d.hostOf T) :
    d'.childLookup p n = d.childLookup p n := by
  apply Option.ext
  intro h
  rw [childLookup_eq_some hI', childLookup_eq_some hI]
  apply exists_congr
  intro T
  constructor
  · rintro ⟨hl, hp, hn, hh⟩
    obtain ⟨hl, hp, hn⟩ := (hb T).mp ⟨hl, hp, hn⟩
    exact ⟨hl, hp, hn, (hhost T hl).symm.trans hh⟩
  · rintro ⟨hl, hp, hn, hh⟩
    obtain ⟨hl', hp, hn⟩ := (hb T).mpr ⟨hl, hp, hn⟩
    exact ⟨hl', hp, hn, (hhost T hl).trans hh⟩

theorem IndexOk.rooted (hI : IndexOk d) : Rooted d.childLookup root := by
  refine ⟨fun {v v' n n' h} hv hv' => ?_, fun v n hv => ?_⟩
  · obtain ⟨T, hT, rfl, rfl, rfl⟩ := (childLookup_eq_some hI).mp hv
    obtain ⟨T', hT', rfl, rfl, he⟩ := (childLookup_eq_some hI).mp hv'
    obtain rfl := hI.hostOf_inj hT' hT he
    exact ⟨rfl, rfl⟩
  · obtain ⟨T, hT, -, -, he⟩ := (childLookup_eq_some hI).mp hv
    exact hI.host_ne_root hT he

theorem IndexOk.resolve_cases (hI : IndexOk d) {path : List Name}
    (hr : d.resolve path = some h) : h = root ∨ Bound d h := by
  induction path using List.reverseRecOn with
  | nil => exact .inl (Option.some.inj hr).symm
  | append_singleton =>
    rw [Cache.resolve, resolve_concat] at hr
    obtain ⟨v, -, hv⟩ := Option.bind_eq_some_iff.mp hr
    obtain ⟨T, hT, -, -, rfl⟩ := (childLookup_eq_some hI).mp hv
    exact .inr (hI.bound hT)

theorem IndexOk.resolve_lt (hI : IndexOk d) {path : List Name} (hr : d.resolve path = some h) :
    h < d.fresh := by
  rcases hI.resolve_cases hr with rfl | ⟨T, hlt, -, rfl⟩
  · exact hI.rootHost.1
  · exact (hI.hostOf_host hlt).1

theorem IndexOk.sameObjs (hI : IndexOk d) (hobj : ∀ a < d.fresh, d'.obj a = d.obj a) :
    SameObjs d.childLookup root d.obj d'.obj := fun _ _ hr => hobj _ (hI.resolve_lt hr)

section Edit

variable {e : Edit ℕ} (hE : Edited d e d') (hI : IndexOk d) (hI' : IndexOk d')
include hE hI hI'

theorem Edited.childLookup_keep
    (hout : ∀ a ∈ e.out, ¬ ((d.dentry a).iparent = p ∧ (d.dentry a).iname = n))
    (hinn : ∀ a ∈ e.inn, ¬ ((d'.dentry a).iparent = p ∧ (d'.dentry a).iname = n)) :
    d'.childLookup p n = d.childLookup p n := by
  apply childLookup_congr hI hI'
  · intro T
    constructor
    · rintro ⟨hT, hk⟩
      rcases (hE.linked_iff hI).mp hT with ⟨hl, -⟩ | hi
      · obtain ⟨h₁, h₂⟩ := hE.key_stays hI hl
        exact ⟨hl, h₁.symm.trans hk.1, h₂.symm.trans hk.2⟩
      · exact absurd hk (hinn T hi)
    · rintro ⟨hT, hk⟩
      obtain ⟨h₁, h₂⟩ := hE.key_stays hI hT
      exact ⟨(hE.linked_iff hI).mpr (.inl ⟨hT, fun ho => hout T ho hk⟩), h₁.trans hk.1,
        h₂.trans hk.2⟩
  · exact fun T hT => hE.kind.hostOf (hI.lt hT)

theorem Edited.childLookup_gone {a : ℕ} (ha : a ∈ e.out)
    (hinn : ∀ b ∈ e.inn, ¬ ((d'.dentry b).iparent = (d.dentry a).iparent ∧
      (d'.dentry b).iname = (d.dentry a).iname)) :
    d'.childLookup (d.dentry a).iparent (d.dentry a).iname = none := by
  rw [childLookup_eq_none hI']
  intro T hT hk
  rcases (hE.linked_iff hI).mp hT with ⟨hl, ho⟩ | hi
  · obtain ⟨h₁, h₂⟩ := hE.key_stays hI hl
    obtain rfl := hI.unique T a hl (hE.out a ha) (h₁.symm.trans hk.1) (h₂.symm.trans hk.2)
    exact ho ha
  · exact hinn T hi hk

theorem Edited.childLookup_came {b : ℕ} (hb : b ∈ e.inn) :
    d'.childLookup (d'.dentry b).iparent (d'.dentry b).iname = some (d'.hostOf b) :=
  childLookup_of_linked hI' ((hE.linked_iff hI).mpr (.inr hb))

end Edit

end Bindings

section Commits

variable {dir dir' path : List Name} {name : Name} {parent id top : ℕ} {isdir positive : Bool}
  {f : Dentry Name → Dentry Name}

theorem IndexOk.names_add (hI : IndexOk d) (hP : ParentsOk d) (hdir : d.resolve dir = some parent)
    (hfree : d.childLookup parent name = none) :
    (d.addCommit parent name id isdir positive).names =
      d.names.bind (dir ++ [name]) ⟨d.fresh, isdir, !positive, id⟩ := by
  have hname := (childLookup_eq_none hI).mp hfree
  have hI' : IndexOk (d.addCommit parent name id isdir positive) := hI.add hname
  have hE : Edited d _ (d.addCommit parent name id isdir positive) := hI.add_edited hname
  have hnew := d.addCommit_new parent id name isdir positive
  have hkeep : ∀ v n, (v, n) ≠ (parent, name) →
      (d.addCommit parent name id isdir positive).childLookup v n = d.childLookup v n := by
    intro v n hne
    refine hE.childLookup_keep hI hI' (by simp [Edit.out]) fun a ha hk => ?_
    obtain rfl : a = d.fresh := by simpa [Edit.inn] using ha
    rw [hnew] at hk
    exact hne (Prod.ext hk.1.symm hk.2.symm)
  have hcame := hE.childLookup_came hI hI' (b := d.fresh) (by simp [Edit.inn])
  rw [hostOf_of_host (by rw [hnew]), hnew] at hcame
  have hleaf : ∀ n, (d.addCommit parent name id isdir positive).childLookup d.fresh n = none := by
    intro n
    rw [childLookup_eq_none hI']
    rintro T hT ⟨hk, -⟩
    rcases (hE.linked_iff hI).mp hT with ⟨hl, -⟩ | hi
    · rw [(hE.key_stays hI hl).1] at hk
      exact Nat.ne_of_lt (hP T hl) hk
    · obtain rfl : T = d.fresh := by simpa [Edit.inn] using hi
      rw [hnew] at hk
      exact Nat.ne_of_lt (hI.resolve_lt hdir) hk
  have hobj : (d.addCommit parent name id isdir positive).obj d.fresh =
      ⟨d.fresh, isdir, !positive, id⟩ := by simp [Cache.obj, hnew]
  rw [← hobj]
  exact pathMap_bind hI.rooted
    (hI.sameObjs fun a ha => by simp [Cache.obj, addCommit_old ha]) hdir hkeep hfree hcame
    hleaf

theorem IndexOk.names_remove (hI : IndexOk d) (host : ℕ) (sealIt : Bool) (ht : d.linked top)
    (hdir : d.resolve dir = some (d.dentry top).iparent) :
    (d.removeCommit top host sealIt).names = d.names.prune (dir ++ [(d.dentry top).iname]) := by
  have hI' : IndexOk (d.removeCommit top host sealIt) := hI.remove ht
  have hE : Edited d _ (d.removeCommit top host sealIt) := hI.remove_edited ht
  have hkeep : ∀ v n, (v, n) ≠ ((d.dentry top).iparent, (d.dentry top).iname) →
      (d.removeCommit top host sealIt).childLookup v n = d.childLookup v n := by
    intro v n hne
    refine hE.childLookup_keep hI hI' (fun a ha hk => ?_) (by simp [Edit.inn])
    obtain rfl : a = top := by simpa [Edit.out] using ha
    exact hne (Prod.ext hk.1.symm hk.2.symm)
  have hgone := hE.childLookup_gone hI hI' (a := top) (by simp [Edit.out]) (by simp [Edit.inn])
  have hobj : ∀ a < d.fresh, (d.removeCommit top host sealIt).obj a = d.obj a := fun a _ => by
    simp [Cache.obj]
  exact pathMap_prune hI.rooted (hI.sameObjs hobj) hdir hkeep hgone

theorem IndexOk.names_stack (hI : IndexOk d) {m : Move Name} {neg : Option ℕ} (ht : d.linked top)
    (hp : (d.dentry top).iparent = m.fromParent) (hn : (d.dentry top).iname = m.fromName)
    (hC : Claim d m top neg)
    (hat : ∀ a, neg = some a → (d.dentry a).iparent = m.newParent ∧ (d.dentry a).iname = m.newName)
    (hdir : d.resolve dir = some m.fromParent) (hdir' : d.resolve dir' = some m.newParent)
    (hne : ¬ (m.fromParent = m.newParent ∧ m.fromName = m.newName))
    (hloop : ¬ dir ++ [m.fromName] <+: dir') :
    (d.stackCommit arm m top neg).names =
      d.names.graft (dir ++ [m.fromName]) (dir' ++ [m.newName]) := by
  have hlt := hI.host_lt ht
  have hI' : IndexOk (d.stackCommit arm m top neg) := hI.stack ht hC
  have hE : Edited d _ (d.stackCommit arm m top neg) := hI.stack_edited ht hC
  have hnew : (d.stackCommit arm m top neg).dentry d.fresh = _ := stackCommit_new hlt
  have hinn : ∀ a, a ∈ (⟨(top, none) :: neg.toList.map (·, none), [d.fresh]⟩ : Edit ℕ).inn →
      a = d.fresh := by
    intro a ha
    cases neg <;> simpa [Edit.inn] using ha
  have hkeep : ∀ v n, (v, n) ≠ (m.fromParent, m.fromName) → (v, n) ≠ (m.newParent, m.newName) →
      (d.stackCommit arm m top neg).childLookup v n = d.childLookup v n := by
    intro v n h₁ h₂
    refine hE.childLookup_keep hI hI' (fun a ha hk => ?_) fun a ha hk => ?_
    · have ho : a = top ∨ neg = some a := by cases neg <;> simpa [Edit.out, eq_comm] using ha
      rcases ho with rfl | ho
      · exact h₁ (Prod.ext (hk.1.symm.trans hp) (hk.2.symm.trans hn))
      · exact h₂ (Prod.ext (hk.1.symm.trans (hat a ho).1) (hk.2.symm.trans (hat a ho).2))
    · obtain rfl := hinn a ha
      rw [hnew] at hk
      exact h₂ (Prod.ext hk.1.symm hk.2.symm)
  have hgone := hE.childLookup_gone hI hI' (a := top) (by simp [Edit.out]) fun b hb hk => by
    obtain rfl := hinn b hb
    rw [hnew, hp, hn] at hk
    exact hne ⟨hk.1.symm, hk.2.symm⟩
  rw [hp, hn] at hgone
  have hcame := hE.childLookup_came hI hI' (b := d.fresh) (by simp [Edit.inn])
  rw [Cache.hostOf, hnew] at hcame
  have hsrc := childLookup_of_linked hI ht
  rw [hp, hn] at hsrc
  have hobj : ∀ a < d.fresh, (d.stackCommit arm m top neg).obj a = d.obj a := fun a ha => by
    rw [Cache.obj, stackCommit_old ha, Cache.obj]
    split_ifs <;> rfl
  exact pathMap_graft hI.rooted (hI.sameObjs hobj) hdir hdir' hkeep hsrc hgone hcame hloop

theorem IndexOk.names_exchange (hI : IndexOk d) {x : Xchg Name} {topa topb : ℕ}
    (hX : XchgTops d x topa topb) (hdir : d.resolve dir = some x.pa)
    (hdir' : d.resolve dir' = some x.pb) (hneq : dir ++ [x.na] ≠ dir' ++ [x.nb])
    (hloop : ¬ dir ++ [x.na] <+: dir') (hloop' : ¬ dir' ++ [x.nb] <+: dir) :
    (d.exchangeCommit arm x topa topb).names = d.names.swap (dir ++ [x.na]) (dir' ++ [x.nb]) := by
  have hI' : IndexOk (d.exchangeCommit arm x topa topb) := hI.exchange hX
  have hE : Edited d _ (d.exchangeCommit arm x topa topb) := hI.exchange_edited hX
  obtain ⟨hsa, hsb⟩ := hI.exchangeCommit_shells arm hX
  have hkeep : ∀ v n, (v, n) ≠ (x.pa, x.na) → (v, n) ≠ (x.pb, x.nb) →
      (d.exchangeCommit arm x topa topb).childLookup v n = d.childLookup v n := by
    intro v n h₁ h₂
    refine hE.childLookup_keep hI hI' (fun a ha hk => ?_) fun a ha hk => ?_
    · obtain rfl | rfl : a = topa ∨ a = topb := by simpa [Edit.out] using ha
      · exact h₁ (Prod.ext (hk.1.symm.trans hX.keya.1) (hk.2.symm.trans hX.keya.2))
      · exact h₂ (Prod.ext (hk.1.symm.trans hX.keyb.1) (hk.2.symm.trans hX.keyb.2))
    · obtain rfl | rfl : a = d.fresh + 1 ∨ a = d.fresh := by simpa [Edit.inn] using ha
      · rw [hsb] at hk
        exact h₁ (Prod.ext hk.1.symm hk.2.symm)
      · rw [hsa] at hk
        exact h₂ (Prod.ext hk.1.symm hk.2.symm)
  have hcamea := hE.childLookup_came hI hI' (b := d.fresh + 1) (by simp [Edit.inn])
  have hcameb := hE.childLookup_came hI hI' (b := d.fresh) (by simp [Edit.inn])
  rw [Cache.hostOf, hsb] at hcamea
  rw [Cache.hostOf, hsa] at hcameb
  have hna := childLookup_of_linked hI hX.linkeda
  have hnb := childLookup_of_linked hI hX.linkedb
  rw [hX.keya.1, hX.keya.2] at hna
  rw [hX.keyb.1, hX.keyb.2] at hnb
  obtain ⟨hha, hhb, hab⟩ := hX.hosts hI
  have hobj : ∀ a < d.fresh, (d.exchangeCommit arm x topa topb).obj a = d.obj a := fun a ha => by
    have h₁ : a ≠ d.fresh := Nat.ne_of_lt ha
    have h₂ : a ≠ d.fresh + 1 := by omega
    rw [Cache.obj, exchangeCommit_dentry_eq arm x hha hhb hab, Cache.obj]
    split_ifs <;> rfl
  exact pathMap_swap hI.rooted (hI.sameObjs hobj) hdir hdir' hkeep hna hnb hcamea hcameb hneq hloop
    hloop'

theorem IndexOk.names_fold (hI : IndexOk d) {n : ℕ} (hn : d.linked n)
    (hs : (d.dentry n).shell = true) (hname : (d.dentry (d.hostOf n)).iname = (d.dentry n).iname)
    (hparent : arm ≠ .mark → (d.dentry (d.hostOf n)).iparent = (d.dentry n).iparent) :
    (d.foldCommit arm n).names = d.names := by
  have hI' : IndexOk (d.foldCommit arm n) := hI.fold hn hs hname hparent
  have hE : Edited d _ (d.foldCommit arm n) := hI.fold_edited hn hs hname hparent
  have hlt := hI.lt hn
  have hkey := hE.place n (d.hostOf n) (by simp)
  refine pathMap_congr (hI.sameObjs fun a _ => ?_) fun v m => ?_
  · rcases eq_or_ne a (d.hostOf n) with rfl | hne
    · rw [Cache.obj, foldCommit_host, Cache.obj]
    · rw [Cache.obj, foldCommit_of_ne hne, Cache.obj]
  · by_cases hat : (d.dentry n).iparent = v ∧ (d.dentry n).iname = m
    · obtain ⟨rfl, rfl⟩ := hat
      have hcame := hE.childLookup_came hI hI' (b := d.hostOf n) (by simp [Edit.inn])
      rw [hkey.1, hkey.2, hE.kind.hostOf (hI.hostOf_host hlt).1, hI.hostOf_hostOf hlt] at hcame
      rw [hcame, childLookup_of_linked hI hn]
    · refine hE.childLookup_keep hI hI' (fun a ha => ?_) fun a ha => ?_
      · obtain rfl : a = n := by simpa [Edit.out] using ha
        exact hat
      · obtain rfl : a = d.hostOf n := by simpa [Edit.inn] using ha
        rw [hkey.1, hkey.2]
        exact hat

theorem IndexOk.modify_bindings (hI : IndexOk d) {a : ℕ} (hI' : IndexOk (d.modify a f))
    (hf : ∀ e, (f e).shell = e.shell ∧ (f e).host = e.host)
    (hkey : ¬ d.linked a ∨ ∀ e, (f e).iparent = e.iparent ∧ (f e).iname = e.iname)
    (v : ℕ) (n : Name) : (d.modify a f).childLookup v n = d.childLookup v n := by
  have hstays : ∀ T, d.linked T → ((d.modify a f).dentry T).iparent = (d.dentry T).iparent ∧
      ((d.modify a f).dentry T).iname = (d.dentry T).iname := by
    intro T hT
    rcases eq_or_ne T a with rfl | hne
    · rw [modify_self]
      exact hkey.resolve_left (fun h => h hT) _
    · rw [modify_of_ne _ _ _ _ hne]
      exact ⟨rfl, rfl⟩
  apply childLookup_congr hI hI'
  · intro T
    constructor
    · rintro ⟨hT, hk⟩
      have hl : d.linked T := hI.linked_of_mem (b := (d.modify a f).bucket T) hT
      rw [(hstays T hl).1, (hstays T hl).2] at hk
      exact ⟨hl, hk⟩
    · rintro ⟨hT, hk⟩
      obtain ⟨hlt, hr⟩ := hI.alloc T hT
      rw [(hstays T hT).1, (hstays T hT).2]
      exact ⟨(hI'.live T hlt hr).mp (hI.not_mark hT), hk⟩
  · intro T _
    unfold Cache.hostOf
    rcases eq_or_ne T a with rfl | hne
    · rw [modify_self, (hf _).1, (hf _).2]
    · rw [modify_of_ne _ _ _ _ hne]

theorem IndexOk.names_modify (hI : IndexOk d) {a : ℕ}
    (hI' : IndexOk (d.modify a f)) (hf : ∀ e, (f e).shell = e.shell ∧ (f e).host = e.host)
    (hkey : ¬ d.linked a ∨ ∀ e, (f e).iparent = e.iparent ∧ (f e).iname = e.iname)
    (hobj : ∀ e, (f e).isdir = e.isdir ∧ (f e).neg = e.neg ∧ (f e).id = e.id) :
    (d.modify a f).names = d.names := by
  refine pathMap_congr (hI.sameObjs fun b _ => ?_) (hI.modify_bindings hI' hf hkey)
  rcases eq_or_ne b a with rfl | hne
  · simp [Cache.obj, hobj]
  · simp [Cache.obj, modify_of_ne _ _ _ _ hne]

theorem IndexOk.names_set (hI : IndexOk d) {h : ℕ}
    (hI' : IndexOk (d.modify h f)) (hr : d.resolve path = some h)
    (hf : ∀ e, (f e).shell = e.shell ∧ (f e).host = e.host)
    (hkey : ∀ e, (f e).iparent = e.iparent ∧ (f e).iname = e.iname) :
    (d.modify h f).names = d.names.bind path ((d.modify h f).obj h) := by
  refine pathMap_set hI.rooted (hI.modify_bindings hI' hf (.inr hkey)) hr ?_
  intro a hne
  simp [Cache.obj, modify_of_ne _ _ _ _ hne]

end Commits

end TrieBenchmark.Txn
