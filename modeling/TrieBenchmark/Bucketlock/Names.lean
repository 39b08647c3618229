import TrieBenchmark.Bucketlock.Alive
import TrieBenchmark.Naming

/-!
The map from paths to objects that the indexes hold, and how each commit edits it.
-/

namespace TrieBenchmark.Bucketlock

open Option DCache List Hlist Namei Serial

variable {Name : Type} [DecidableEq Name] {d d' : DCache Name} {top : ℕ}

namespace DCache

def obj (d : DCache Name) (h : ℕ) : Obj :=
  ⟨h, (d.dentry h).isdir, (d.dentry h).neg, (d.dentry h).id⟩

def resolve (d : DCache Name) (path : List Name) : Option ℕ :=
  Namei.resolve d.childLookup root path

def names (d : DCache Name) : PathMap Name :=
  ⟨fun path => (d.resolve path).map d.obj⟩

end DCache

section Bindings

variable {p h : ℕ} {n : Name}

theorem HashOk.childLookup_eq_some (hI : HashOk d) :
    d.childLookup p n = some h ↔ ∃ top, d.hashed top ∧ (d.dentry top).iparent = p ∧
      (d.dentry top).iname = n ∧ d.hostOf top = h := by
  unfold DCache.childLookup
  rw [map_eq_some_iff]
  exact exists_congr fun top => by rw [hI.findTop_eq_some]; tauto

theorem HashOk.childLookup_eq_none (hI : HashOk d) : d.childLookup p n = none ↔
    ∀ a, d.hashed a → ¬ ((d.dentry a).iparent = p ∧ (d.dentry a).iname = n) := by
  unfold DCache.childLookup
  rw [map_eq_none_iff, hI.findTop_eq_none]

theorem HashOk.childLookup_congr (hI : HashOk d) (hI' : HashOk d')
    (hb : ∀ h, (∃ top, d'.hashed top ∧ (d'.dentry top).iparent = p ∧ (d'.dentry top).iname = n ∧
      d'.hostOf top = h) ↔ ∃ top, d.hashed top ∧ (d.dentry top).iparent = p ∧
      (d.dentry top).iname = n ∧ d.hostOf top = h) : d'.childLookup p n = d.childLookup p n := by
  apply Option.ext
  intro h
  rw [hI'.childLookup_eq_some, hI.childLookup_eq_some, hb]

theorem HashOk.rooted (hI : HashOk d) : Rooted d.childLookup root := by
  refine ⟨fun {v v' n n' h} hv hv' => ?_, fun v n hv => ?_⟩
  · obtain ⟨top, ht, rfl, rfl, rfl⟩ := hI.childLookup_eq_some.mp hv
    obtain ⟨top', ht', rfl, rfl, he⟩ := hI.childLookup_eq_some.mp hv'
    obtain rfl := hI.hostOf_inj ht' ht he
    exact ⟨rfl, rfl⟩
  · obtain ⟨top, ht, -, -, he⟩ := hI.childLookup_eq_some.mp hv
    exact hI.host_ne_root ht he

theorem HashOk.resolve_alive (hI : HashOk d) {path : List Name} (hr : d.resolve path = some h) :
    d.alive h := by
  induction path using reverseRecOn with
  | nil => exact .inl (some.inj hr).symm
  | append_singleton =>
    rw [DCache.resolve, resolve_concat] at hr
    obtain ⟨v, -, hv⟩ := bind_eq_some_iff.mp hr
    obtain ⟨top, ht, -, -, he⟩ := hI.childLookup_eq_some.mp hv
    exact .inr ⟨top, ht, he⟩

theorem HashOk.childLookup_none (hI : HashOk d)
    (hp : ∀ a, d.hashed a → (d.dentry a).iparent ≠ p) (n : Name) : d.childLookup p n = none := by
  by_contra hne
  obtain ⟨h, hh⟩ := ne_none_iff_exists'.mp hne
  obtain ⟨top, ht, he, -, -⟩ := hI.childLookup_eq_some.mp hh
  exact hp top ht he

theorem HashOk.childLookup_of_hashed (hI : HashOk d) (ht : d.hashed top) :
    d.childLookup (d.dentry top).iparent (d.dentry top).iname = some (d.hostOf top) :=
  hI.childLookup_eq_some.mpr ⟨top, ht, rfl, rfl, rfl⟩

section Edit

variable {out inn : List ℕ} (hI : HashOk d) (hI' : HashOk d') (hE : HashEdit d d' out inn)
include hI hI' hE

theorem HashEdit.childLookup_keep
    (hkey : ∀ a, d.hashed a → a ∉ out → (d'.dentry a).iparent = (d.dentry a).iparent ∧
      (d'.dentry a).iname = (d.dentry a).iname ∧ d'.hostOf a = d.hostOf a)
    (hout : ∀ a ∈ out, ¬ ((d.dentry a).iparent = p ∧ (d.dentry a).iname = n))
    (hinn : ∀ a ∈ inn, ¬ ((d'.dentry a).iparent = p ∧ (d'.dentry a).iname = n)) :
    d'.childLookup p n = d.childLookup p n := by
  apply hI.childLookup_congr hI'
  intro h
  apply exists_congr
  intro top
  constructor
  · rintro ⟨ht, hp, hn, hh⟩
    rcases hE.hashed_iff.mp ht with ⟨ht, hto⟩ | hti
    · obtain ⟨h₁, h₂, h₃⟩ := hkey top ht hto
      exact ⟨ht, h₁.symm.trans hp, h₂.symm.trans hn, h₃.symm.trans hh⟩
    · exact absurd ⟨hp, hn⟩ (hinn top hti)
  · rintro ⟨ht, hp, hn, hh⟩
    have hto : top ∉ out := fun ho => hout top ho ⟨hp, hn⟩
    obtain ⟨h₁, h₂, h₃⟩ := hkey top ht hto
    exact ⟨hE.hashed_iff.mpr (.inl ⟨ht, hto⟩), h₁.trans hp, h₂.trans hn, h₃.trans hh⟩

theorem HashEdit.childLookup_gone {a : ℕ} (ha : d.hashed a) (hao : a ∈ out)
    (hkey : ∀ a, d.hashed a → a ∉ out → (d'.dentry a).iparent = (d.dentry a).iparent ∧
      (d'.dentry a).iname = (d.dentry a).iname ∧ d'.hostOf a = d.hostOf a)
    (hinn : ∀ b ∈ inn, ¬ ((d'.dentry b).iparent = (d.dentry a).iparent ∧
      (d'.dentry b).iname = (d.dentry a).iname)) :
    d'.childLookup (d.dentry a).iparent (d.dentry a).iname = none := by
  by_contra hne
  obtain ⟨h, hh⟩ := ne_none_iff_exists'.mp hne
  obtain ⟨top, ht, hp, hn, -⟩ := hI'.childLookup_eq_some.mp hh
  rcases hE.hashed_iff.mp ht with ⟨ht, hto⟩ | hti
  · obtain ⟨h₁, h₂, -⟩ := hkey top ht hto
    obtain rfl := hI.unique top a ht ha (h₁.symm.trans hp) (h₂.symm.trans hn)
    exact hto hao
  · exact hinn top hti ⟨hp, hn⟩

end Edit

end Bindings

section Commits

variable {dir dir' path : List Name} {name name' : Name} {parent parent' id : ℕ} {isdir positive : Bool}

theorem HashOk.resolve_lt (hI : HashOk d) {h : ℕ} (hr : d.resolve path = some h) : h < d.fresh :=
  (hI.alive_host (hI.resolve_alive hr)).1

theorem HashOk.sameObjs (hI : HashOk d) (hobj : ∀ a < d.fresh, d'.obj a = d.obj a) :
    SameObjs d.childLookup root d.obj d'.obj := fun _ _ hr => hobj _ (hI.resolve_lt hr)

theorem HashOk.names_add (hI : HashOk d) (hs : Sited d) (hdir : d.resolve dir = some parent)
    (hfree : ∀ a, d.hashed a → ¬ ((d.dentry a).iparent = parent ∧ (d.dentry a).iname = name)) :
    (d.addCommit parent name id isdir positive).names =
      d.names.bind (dir ++ [name]) ⟨d.fresh, isdir, !positive, id⟩ := by
  have hI' : HashOk (d.addCommit parent name id isdir positive) := hI.add hfree
  have hE := hI.add_edit parent id name isdir positive
  have hself := addCommit_dentry_fresh (d := d) parent id name isdir positive
  have hold : ∀ a < d.fresh, (d.addCommit parent name id isdir positive).dentry a = d.dentry a :=
    fun a ha => addCommit_dentry_of_lt ha
  have hlt := hI.resolve_lt hdir
  have hfresh : (d.addCommit parent name id isdir positive).hashed d.fresh :=
    hE.hashed_iff.mpr (.inr (mem_singleton_self _))
  have hkeep : ∀ v n, (v, n) ≠ (parent, name) →
      (d.addCommit parent name id isdir positive).childLookup v n = d.childLookup v n := by
    intro v n hne
    refine hE.childLookup_keep hI hI' (fun a ha _ => ?_) (by simp) (fun a ha hk => ?_)
    · rw [DCache.hostOf, hold a (hI.lt ha)]
      exact ⟨rfl, rfl, rfl⟩
    · obtain rfl := mem_singleton.mp ha
      rw [hself] at hk
      exact hne (Prod.ext hk.1.symm hk.2.symm)
  have hnew : (d.addCommit parent name id isdir positive).childLookup parent name =
      some d.fresh := by
    have h := hI'.childLookup_of_hashed hfresh
    rwa [hostOf_of_host (by rw [hself]), hself] at h
  have hleaf : ∀ n, (d.addCommit parent name id isdir positive).childLookup d.fresh n = none := by
    apply hI'.childLookup_none
    intro a ha
    rcases hE.hashed_iff.mp ha with ⟨ha, -⟩ | ha
    · rw [hold a (hI.lt ha)]
      exact Nat.ne_of_lt (hs.iparent a ha).1
    · obtain rfl := mem_singleton.mp ha
      rw [hself]
      exact Nat.ne_of_lt hlt
  have hobj : (d.addCommit parent name id isdir positive).obj d.fresh =
      ⟨d.fresh, isdir, !positive, id⟩ := by simp [DCache.obj, hself]
  rw [← hobj]
  exact pathMap_bind hI.rooted (hI.sameObjs fun a ha => by simp [DCache.obj, hold a ha]) hdir hkeep
    (hI.childLookup_eq_none.mpr hfree) hnew hleaf

theorem HashOk.names_del (hI : HashOk d) (ht : d.hashed top)
    (hdir : d.resolve dir = some (d.dentry top).iparent) :
    (d.delLocked top).names = d.names.prune (dir ++ [(d.dentry top).iname]) := by
  have hI' := hI.del ht
  have hE := hI.del_edit ht
  have hkey : ∀ a, d.hashed a → a ∉ [top] →
      ((d.delLocked top).dentry a).iparent = (d.dentry a).iparent ∧
      ((d.delLocked top).dentry a).iname = (d.dentry a).iname ∧
      (d.delLocked top).hostOf a = d.hostOf a := fun a _ _ => ⟨rfl, rfl, rfl⟩
  have hkeep : ∀ v n, (v, n) ≠ ((d.dentry top).iparent, (d.dentry top).iname) →
      (d.delLocked top).childLookup v n = d.childLookup v n := by
    intro v n hne
    refine hE.childLookup_keep hI hI' hkey (fun a ha hk => ?_) (by simp)
    obtain rfl := mem_singleton.mp ha
    exact hne (Prod.ext hk.1.symm hk.2.symm)
  have hgone := hE.childLookup_gone hI hI' ht (mem_singleton_self _) hkey (by simp)
  have hobj : ∀ a < d.fresh, (d.delLocked top).obj a = d.obj a := fun _ _ => rfl
  exact pathMap_prune hI.rooted (hI.sameObjs hobj) hdir hkeep hgone

omit [DecidableEq Name] in
theorem stackCommit_keeps {m : Move Name} {top a : ℕ} (hlt : d.hostOf top < d.fresh)
    (ha : a < d.fresh) : ((d.stackCommit m top).dentry a).iparent = (d.dentry a).iparent ∧
      ((d.stackCommit m top).dentry a).iname = (d.dentry a).iname ∧
      (d.stackCommit m top).hostOf a = d.hostOf a ∧ (d.stackCommit m top).obj a = d.obj a := by
  rw [DCache.obj, DCache.hostOf, stackCommit_old hlt ha]
  exact ⟨rfl, rfl, rfl, rfl⟩

theorem HashOk.stack_bindings (hI : HashOk d) {m : Move Name} (ht : d.hashed top)
    (hp : (d.dentry top).iparent = m.fromParent) (hn : (d.dentry top).iname = m.fromName)
    (hfree : ∀ a, d.hashed a →
      ¬ ((d.dentry a).iparent = m.newParent ∧ (d.dentry a).iname = m.newName))
    (hne : ¬ (m.fromParent = m.newParent ∧ m.fromName = m.newName)) :
    (∀ v n, (v, n) ≠ (m.fromParent, m.fromName) → (v, n) ≠ (m.newParent, m.newName) →
      (d.stackCommit m top).childLookup v n = d.childLookup v n) ∧
    (d.stackCommit m top).childLookup m.fromParent m.fromName = none ∧
    (d.stackCommit m top).childLookup m.newParent m.newName = some (d.hostOf top) := by
  have hhost := hI.host_lt ht
  have hE := hI.stack_edit ht hp hn
  have hI' := hI.stack ht hp hn hfree
  have hshell := stackCommit_dentry_shell (m := m) (Nat.ne_of_lt hhost)
  have hkey : ∀ a, d.hashed a → a ∉ [top] →
      ((d.stackCommit m top).dentry a).iparent = (d.dentry a).iparent ∧
      ((d.stackCommit m top).dentry a).iname = (d.dentry a).iname ∧
      (d.stackCommit m top).hostOf a = d.hostOf a := fun a ha _ =>
    let h := stackCommit_keeps (m := m) hhost (hI.lt ha)
    ⟨h.1, h.2.1, h.2.2.1⟩
  refine ⟨fun v n h₁ h₂ => ?_, ?_, ?_⟩
  · refine hE.childLookup_keep hI hI' hkey (fun a ha hk => ?_) (fun a ha hk => ?_)
    · obtain rfl := mem_singleton.mp ha
      exact h₁ (Prod.ext (hk.1.symm.trans hp) (hk.2.symm.trans hn))
    · obtain rfl := mem_singleton.mp ha
      rw [hshell] at hk
      exact h₂ (Prod.ext hk.1.symm hk.2.symm)
  · have h := hE.childLookup_gone hI hI' ht (mem_singleton_self _) hkey fun b hb hk => by
      obtain rfl := mem_singleton.mp hb
      rw [hshell, hp, hn] at hk
      exact hne ⟨hk.1.symm, hk.2.symm⟩
    rwa [hp, hn] at h
  · have h := hI'.childLookup_of_hashed (hE.hashed_iff.mpr (.inr (mem_singleton_self d.fresh)))
    rw [DCache.hostOf, hshell] at h
    simpa [DCache.newShell] using h

theorem Claimed.childLookup {self p : ℕ} {n : Name} (hC : Claimed d parent name self d')
    (hI : HashOk d) (hne : (p, n) ≠ (parent, name)) : d'.childLookup p n = d.childLookup p n := by
  obtain ⟨hd, -, -, hh⟩ := hC.spec hI
  apply hI.childLookup_congr (hC.hashOk hI)
  intro h
  apply exists_congr
  intro a
  rw [hh, hd, hC.hostOf]
  constructor
  · rintro ⟨⟨ha, -⟩, hk⟩
    exact ⟨ha, hk⟩
  · rintro ⟨ha, hv, hn, hk⟩
    exact ⟨⟨ha, fun hk' => hne (Prod.ext (hv.symm.trans hk'.1) (hn.symm.trans hk'.2))⟩, hv, hn, hk⟩

theorem HashOk.names_stack (hI : HashOk d) {m : Move Name} {d₁ : DCache Name}
    (ht : d.hashed top) (hp : (d.dentry top).iparent = m.fromParent)
    (hn : (d.dentry top).iname = m.fromName) (hC : Claimed d m.newParent m.newName top d₁)
    (hdir : d.resolve dir = some m.fromParent) (hdir' : d.resolve dir' = some m.newParent)
    (hne : ¬ (m.fromParent = m.newParent ∧ m.fromName = m.newName))
    (hloop : ¬ dir ++ [m.fromName] <+: dir') :
    (d₁.stackCommit m top).names =
      d.names.graft (dir ++ [m.fromName]) (dir' ++ [m.newName]) := by
  obtain ⟨hd, hf, -, hh⟩ := hC.spec hI
  have hhost : d₁.hostOf top < d₁.fresh := by
    rw [hC.hostOf, hf]
    exact hI.host_lt ht
  obtain ⟨hkeep, hgone, hnew⟩ := (hC.hashOk hI).stack_bindings (hC.self_hashed hI ht)
    (by rw [hd, hp]) (by rw [hd, hn]) (fun a ha => by rw [hd]; exact ((hh a).mp ha).2) hne
  have hsrc : d.childLookup m.fromParent m.fromName = some (d.hostOf top) := by
    rw [← hp, ← hn]
    exact hI.childLookup_of_hashed ht
  have hobj : ∀ a < d.fresh, (d₁.stackCommit m top).obj a = d.obj a := fun a ha => by
    rw [(stackCommit_keeps hhost (hf.symm ▸ ha)).2.2.2, DCache.obj, DCache.obj, hd]
  exact pathMap_graft hI.rooted (hI.sameObjs hobj) hdir hdir'
    (fun v n h₁ h₂ => (hkeep v n h₁ h₂).trans (hC.childLookup hI h₂)) hsrc hgone
    (hnew.trans (by rw [hC.hostOf])) hloop

omit [DecidableEq Name] in
theorem exchangeCommit_keeps {x : Xchg Name} {topa topb a : ℕ} (hha : d.hostOf topa < d.fresh)
    (hhb : d.hostOf topb < d.fresh) (hab : d.hostOf topa ≠ d.hostOf topb) (ha : a < d.fresh) :
    ((d.exchangeCommit x topa topb).dentry a).iparent = (d.dentry a).iparent ∧
      ((d.exchangeCommit x topa topb).dentry a).iname = (d.dentry a).iname ∧
      (d.exchangeCommit x topa topb).hostOf a = d.hostOf a ∧
      (d.exchangeCommit x topa topb).obj a = d.obj a := by
  rw [DCache.obj, DCache.hostOf, exchangeCommit_old hha hhb hab ha]
  exact ⟨rfl, rfl, rfl, rfl⟩

theorem HashOk.exchange_bindings (hI : HashOk d) {x : Xchg Name} {topa topb : ℕ}
    (hX : XchgTops d x topa topb) :
    (∀ v n, (v, n) ≠ (x.pa, x.na) → (v, n) ≠ (x.pb, x.nb) →
      (d.exchangeCommit x topa topb).childLookup v n = d.childLookup v n) ∧
    (d.exchangeCommit x topa topb).childLookup x.pa x.na = some (d.hostOf topb) ∧
    (d.exchangeCommit x topa topb).childLookup x.pb x.nb = some (d.hostOf topa) := by
  obtain ⟨hha, hhb, hab⟩ := hX.hosts hI
  have hE := hI.exchange_edit hX
  have hI' := hI.exchange hX
  have hsa := exchangeCommit_dentry_sa (x := x) hha hhb
  have hsb := exchangeCommit_dentry_sb (x := x) hha hhb
  refine ⟨fun v n h₁ h₂ => ?_, ?_, ?_⟩
  · refine hE.childLookup_keep hI hI' (fun a ha _ => ?_) (fun a ha hk => ?_) (fun a ha hk => ?_)
    · have h := exchangeCommit_keeps (x := x) hha hhb hab (hI.lt ha)
      exact ⟨h.1, h.2.1, h.2.2.1⟩
    · obtain rfl | rfl : a = topa ∨ a = topb := by simpa using ha
      · exact h₁ (Prod.ext (hk.1.symm.trans hX.parenta) (hk.2.symm.trans hX.namea))
      · exact h₂ (Prod.ext (hk.1.symm.trans hX.parentb) (hk.2.symm.trans hX.nameb))
    · obtain rfl | rfl : a = d.fresh ∨ a = d.fresh + 1 := by simpa [or_comm] using ha
      · rw [hsa] at hk
        exact h₂ (Prod.ext hk.1.symm hk.2.symm)
      · rw [hsb] at hk
        exact h₁ (Prod.ext hk.1.symm hk.2.symm)
  · have h := hI'.childLookup_of_hashed (hE.hashed_iff.mpr (.inr (by simp : d.fresh + 1 ∈ _)))
    rw [DCache.hostOf, hsb] at h
    simpa [DCache.newShell] using h
  · have h := hI'.childLookup_of_hashed (hE.hashed_iff.mpr (.inr (by simp : d.fresh ∈ _)))
    rw [DCache.hostOf, hsa] at h
    simpa [DCache.newShell] using h

theorem HashOk.names_exchange (hI : HashOk d) {x : Xchg Name} {topa topb : ℕ}
    (hX : XchgTops d x topa topb) (hdir : d.resolve dir = some x.pa)
    (hdir' : d.resolve dir' = some x.pb) (hloop : ¬ dir ++ [x.na] <+: dir')
    (hloop' : ¬ dir' ++ [x.nb] <+: dir) :
    (d.exchangeCommit x topa topb).names = d.names.swap (dir ++ [x.na]) (dir' ++ [x.nb]) := by
  obtain ⟨hha, hhb, hab⟩ := hX.hosts hI
  obtain ⟨hkeep, hna', hnb'⟩ := hI.exchange_bindings hX
  have hna : d.childLookup x.pa x.na = some (d.hostOf topa) := by
    rw [← hX.parenta, ← hX.namea]
    exact hI.childLookup_of_hashed hX.hasheda
  have hnb : d.childLookup x.pb x.nb = some (d.hostOf topb) := by
    rw [← hX.parentb, ← hX.nameb]
    exact hI.childLookup_of_hashed hX.hashedb
  have hobj : ∀ a < d.fresh, (d.exchangeCommit x topa topb).obj a = d.obj a := fun a ha =>
    (exchangeCommit_keeps hha hhb hab ha).2.2.2
  have hneq : dir ++ [x.na] ≠ dir' ++ [x.nb] := by
    intro he
    obtain ⟨rfl, hn⟩ := append_inj' he rfl
    have hp : x.pa = x.pb := some.inj (hdir.symm.trans hdir')
    refine hX.ne (hI.unique topa topb hX.hasheda hX.hashedb ?_ ?_)
    · rw [hX.parenta, hX.parentb, hp]
    · rw [hX.namea, hX.nameb, (cons.inj hn).1]
  exact pathMap_swap hI.rooted (hI.sameObjs hobj) hdir hdir' hkeep hna hnb hna' hnb' hneq hloop
    hloop'

theorem HashOk.fold_bindings (hI : HashOk d) {k : ℕ} (hk : d.hashed k)
    (hs : (d.dentry k).shell = true) (v : ℕ) (n : Name) :
    (d.foldCommit k).childLookup v n = d.childLookup v n := by
  have hE := hI.fold_edit hk hs
  have hI' := hI.fold hk hs
  have hshell : ((d.foldCommit k).dentry (d.hostOf k)).shell = false := by
    rw [foldCommit_dentry_host]
    exact (hI.hostOf_host (hI.lt hk)).2
  have hnew := hI'.childLookup_of_hashed
    (hE.hashed_iff.mpr (.inr (mem_singleton_self (d.hostOf k))))
  rw [hostOf_of_host hshell, foldCommit_dentry_host] at hnew
  by_cases hkey : (d.dentry k).iparent = v ∧ (d.dentry k).iname = n
  · obtain ⟨rfl, rfl⟩ := hkey
    rw [hI.childLookup_of_hashed hk]
    exact hnew
  · refine hE.childLookup_keep hI hI' (fun a ha hne => ?_) (fun a ha => ?_) (fun a ha => ?_)
    · have hah : a ≠ d.hostOf k := fun he => hI.host_not_hashed hk hs (he ▸ ha)
      rw [DCache.hostOf, foldCommit_dentry_of_ne hah]
      exact ⟨rfl, rfl, rfl⟩
    · rw [mem_singleton.mp ha]
      exact hkey
    · rw [mem_singleton.mp ha, foldCommit_dentry_host]
      exact hkey

theorem HashOk.scratch_bindings (hI : HashOk d) {k : ℕ} (hk : d.hashed k)
    (hs : (d.dentry k).shell = true) (v : ℕ) (n : Name) :
    (d.foldScratch k).childLookup v n = d.childLookup v n := by
  have hchain := (hI.scratch_chain hk hs).2
  apply hI.childLookup_congr (hI.scratch hk hs)
  intro h
  apply exists_congr
  intro a
  have hhashed : (d.foldScratch k).hashed a ↔ d.hashed a := by
    rw [DCache.hashed, DCache.hashed, hchain]
  rw [hhashed]
  constructor <;> rintro ⟨ha, hrest⟩ <;> refine ⟨ha, ?_⟩ <;>
    have hah : a ≠ d.hostOf k := fun he => hI.host_not_hashed hk hs (he ▸ ha)
  · rwa [DCache.hostOf, foldScratch_dentry_of_ne hah] at hrest
  · rwa [DCache.hostOf, foldScratch_dentry_of_ne hah]

theorem HashOk.names_of_bindings (hI : HashOk d)
    (hb : ∀ v n, d'.childLookup v n = d.childLookup v n)
    (hobj : ∀ a < d.fresh, d'.obj a = d.obj a) : d'.names = d.names :=
  pathMap_congr (hI.sameObjs hobj) hb

theorem HashOk.names_foldLocked (hI : HashOk d) {k : ℕ} (hk : IsShell d k) (oom : Bool) :
    (d.foldLocked k oom).names = d.names := by
  rw [foldLocked_eq]
  split_ifs with hm ho
  · rfl
  · have hh := hI.hashed_of_shell hk (by simpa using hm)
    refine hI.names_of_bindings (hI.scratch_bindings hh hk.2) fun a _ => ?_
    rcases eq_or_ne a (d.hostOf k) with rfl | hne
    · simp [DCache.obj, DCache.foldScratch]
    · rw [DCache.obj, foldScratch_dentry_of_ne hne, DCache.obj]
  · have hh := hI.hashed_of_shell hk (by simpa using hm)
    refine hI.names_of_bindings (hI.fold_bindings hh hk.2) fun a _ => ?_
    rcases eq_or_ne a (d.hostOf k) with rfl | hne
    · rw [DCache.obj, foldCommit_dentry_host, DCache.obj]
    · rw [DCache.obj, foldCommit_dentry_of_ne hne, DCache.obj]

theorem HashOk.modify_bindings (hI : HashOk d) (a : ℕ) (f : Dentry Name → Dentry Name)
    (hf : ∀ e, (f e).iparent = e.iparent ∧ (f e).iname = e.iname ∧ (f e).shell = e.shell ∧
      (f e).host = e.host ∧ (f e).top = e.top) (v : ℕ) (n : Name) :
    (d.modify a f).childLookup v n = d.childLookup v n := by
  apply hI.childLookup_congr (hI.modify a f hf)
  intro h
  apply exists_congr
  intro b
  obtain ⟨h₁, h₂, h₃, h₄, -⟩ := d.modify_keeps a b (fun e' e => e'.iparent = e.iparent ∧
    e'.iname = e.iname ∧ e'.shell = e.shell ∧ e'.host = e.host ∧ e'.top = e.top)
    (fun _ => ⟨rfl, rfl, rfl, rfl, rfl⟩) hf
  rw [h₁, h₂, DCache.hostOf, h₃, h₄]
  rfl

theorem HashOk.names_setMoving (hI : HashOk d) (a : ℕ) (flag : Bool) :
    (d.setMoving a flag).names = d.names := by
  refine hI.names_of_bindings (hI.modify_bindings a _ fun e => ⟨rfl, rfl, rfl, rfl, rfl⟩)
    fun b _ => ?_
  simp only [DCache.obj, setMoving_dentry]

theorem HashOk.names_flip (hI : HashOk d) {h : ℕ} (hr : d.resolve path = some h)
    (negative : Bool) (id : ℕ) : (d.flip h negative id).names =
      d.names.bind path { d.obj h with neg := negative, id := id } := by
  have hobj : (d.flip h negative id).obj h = { d.obj h with neg := negative, id := id } := by
    simp [DCache.obj, DCache.flip]
  rw [← hobj]
  have hb : ∀ v n, (d.flip h negative id).childLookup v n = d.childLookup v n :=
    hI.modify_bindings h _ fun e => ⟨rfl, rfl, rfl, rfl, rfl⟩
  refine pathMap_set hI.rooted hb hr ?_
  intro a hne
  simp [DCache.obj, DCache.flip, modify_of_ne _ _ _ _ hne]

end Commits

end TrieBenchmark.Bucketlock
