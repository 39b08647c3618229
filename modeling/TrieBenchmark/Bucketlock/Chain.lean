import TrieBenchmark.Lib.HlistRead

/-!
The chain edits of the bucket-lock engine: plain stores under the head lock, and the edits
recorded into a single-writer transaction. A transaction holds the memory with its
pre-publish stores and the records its commit applies in order.
-/

namespace TrieBenchmark.Bucketlock

open Function Hlist

variable {H N : Type}

inductive Record (H N : Type) where
  | link (slot : Slot H N) (old new : Word N)
  | back (node : N) (old new : Option (Slot H N))

structure SwTxn (H N : Type) where
  mem : Links H N
  recs : List (Record H N)

section

variable [DecidableEq H] [DecidableEq N]

def Record.settle (L : Links H N) : Record H N → Links H N
  | .link slot _ new => L.store slot new
  | .back node _ new => L.setPprev node new

def SwTxn.commit (t : SwTxn H N) : Links H N :=
  t.recs.foldl Record.settle t.mem

/-- A record on the word `n` was found through; an unlinked node has none. -/
def linkRecord (pprev : Option (Slot H N)) (old new : Word N) : List (Record H N) :=
  match pprev with
  | some slot => [.link slot old new]
  | none => []

def backRecord (next : Option N) (old new : Option (Slot H N)) : List (Record H N) :=
  match next with
  | some node => [.back node old new]
  | none => []

def blHlistAddHeadLocked (L : Links H N) (h : H) (n : N) : Links H N :=
  let first := L.first h
  let L₁ := (L.store (.next n) ⟨first, false⟩).setPprev n (some (.first h))
  let L₂ := match first with
    | some m => L₁.setPprev m (some (.next n))
    | none => L₁
  L₂.store (.first h) ⟨some n, false⟩

def blHlistDelLocked (L : Links H N) (n : N) : Links H N :=
  let ppv := L.pprev n
  let next := L.next n
  let L₁ := L.store (.next n) ⟨next, true⟩
  let L₂ := match ppv with
    | some slot => L₁.store slot ⟨next, false⟩
    | none => L₁
  match next with
  | some m => L₂.setPprev m ppv
  | none => L₂

def blSwAddHead (t : SwTxn H N) (new : N) (h : H) : SwTxn H N :=
  let succ := t.mem.first h
  { mem := (t.mem.store (.next new) ⟨succ, false⟩).setPprev new (some (.first h))
    recs := t.recs ++ .link (.first h) ⟨succ, false⟩ ⟨some new, false⟩ ::
      backRecord succ (some (.first h)) (some (.next new)) }

def blSwDelMarked (t : SwTxn H N) (elem : N) : SwTxn H N :=
  let ppv := t.mem.pprev elem
  let next := t.mem.next elem
  { t with
    recs := t.recs ++ linkRecord ppv ⟨some elem, false⟩ ⟨next, false⟩ ++
      backRecord next (some (.next elem)) ppv ++
      [.link (.next elem) ⟨next, false⟩ ⟨next, true⟩] }

def blSwReplace (t : SwTxn H N) (old new : N) : SwTxn H N :=
  let ppv := t.mem.pprev old
  let next := t.mem.next old
  { mem := (t.mem.store (.next new) ⟨next, false⟩).setPprev new ppv
    recs := t.recs ++ linkRecord ppv ⟨some old, false⟩ ⟨some new, false⟩ ++
      backRecord next (some (.next old)) (some (.next new)) ++
      [.link (.next old) ⟨next, false⟩ ⟨next, true⟩] }

def blSwReplaceAdj (t : SwTxn H N) (first newfirst second newsecond : N) : SwTxn H N :=
  let pp := t.mem.pprev first
  let succ := t.mem.next second
  { mem := (((t.mem.setPprev newfirst pp).store (.next newfirst) ⟨some newsecond, false⟩).setPprev
      newsecond (some (.next newfirst))).store (.next newsecond) ⟨succ, false⟩
    recs := t.recs ++ linkRecord pp ⟨some first, false⟩ ⟨some newfirst, false⟩ ++
      backRecord succ (some (.next second)) (some (.next newsecond)) ++
      [.link (.next first) ⟨some second, false⟩ ⟨some second, true⟩,
        .link (.next second) ⟨succ, false⟩ ⟨succ, true⟩] }

def blSwReplace2 (t : SwTxn H N) (olda newa oldb newb : N) : SwTxn H N :=
  if t.mem.next olda = some oldb then blSwReplaceAdj t olda newa oldb newb
  else if t.mem.next oldb = some olda then blSwReplaceAdj t oldb newb olda newa
  else blSwReplace (blSwReplace t olda newa) oldb newb

end

section

variable [DecidableEq H] [DecidableEq N] {L : Links H N} {c : H → List N} {h : H} {n old new : N}

theorem blHlistAddHeadLocked_inserted (hF : Family L c) (hn : ∀ h', n ∉ c h') :
    Inserted L (blHlistAddHeadLocked L h n) h n :=
  hF.addHead_inserted hn

theorem blHlistDelLocked_erased (hF : Family L c) (hn : n ∈ c h) :
    Erased L (blHlistDelLocked L n) n := by
  obtain ⟨e, hpp, hself, -, hnext, -⟩ := hF.edit_facts hn
  unfold blHlistDelLocked
  cases hm : L.next n <;> constructor <;> simp +contextual [hm, hpp, hself.symm, eq_comm]

theorem blSwReplace_replaced (hR : Ready L old new) :
    Replaced L (blSwReplace ⟨L, []⟩ old new).commit old new := by
  obtain ⟨⟨e, hpp, hself, hen⟩, -, hnn, hon⟩ := hR
  unfold blSwReplace SwTxn.commit
  cases hm : L.next old with
  | none =>
    constructor <;> simp +contextual [hm, hpp, hself, hon, hen.symm, linkRecord, backRecord,
      Record.settle, update_apply, eq_comm]
  | some m =>
    have hmn : m ≠ new := fun he => hnn (he ▸ hm)
    constructor <;> simp +contextual [hm, hpp, hself, hon, hen.symm, hmn.symm, linkRecord,
      backRecord, Record.settle, update_apply, eq_comm]

theorem blSwDelMarked_erased (hF : Family L c) (hn : n ∈ c h) :
    Erased L (blSwDelMarked ⟨L, []⟩ n).commit n := by
  obtain ⟨e, hpp, hself, -, hnext, -⟩ := hF.edit_facts hn
  unfold blSwDelMarked SwTxn.commit
  cases hm : L.next n <;> constructor <;>
    simp +contextual [hm, hpp, hself, linkRecord, backRecord, Record.settle, eq_comm]

theorem blSwAddHead_inserted (hF : Family L c) (hn : ∀ h', n ∉ c h') :
    Inserted L (blSwAddHead ⟨L, []⟩ n h).commit h n := by
  have hfirst : L.first h ≠ some n := fun he => hn h (hF.first_mem he)
  unfold blSwAddHead SwTxn.commit
  cases hf : L.first h with
  | none => constructor <;> simp +contextual [hf, backRecord, Record.settle]
  | some m =>
    have hm : m ≠ n := fun hm => hfirst (hm ▸ hf)
    constructor <;> simp +contextual [hm.symm, hf, backRecord, Record.settle, eq_comm]

def Record.Avoids (n : N) : Record H N → Prop
  | .link slot _ _ => slot ≠ .next n
  | .back node _ _ => node ≠ n

theorem foldl_settle_prepublish {recs : List (Record H N)} (hrecs : ∀ r ∈ recs, r.Avoids n)
    (L : Links H N) (w : Word N) (p : Option (Slot H N)) :
    recs.foldl Record.settle ((L.store (.next n) w).setPprev n p) =
      ((recs.foldl Record.settle L).store (.next n) w).setPprev n p := by
  induction recs generalizing L with
  | nil => rfl
  | cons r _ ih =>
    have hr : r.Avoids n := hrecs r (by simp)
    have hcomm : Record.settle ((L.store (.next n) w).setPprev n p) r =
        ((Record.settle L r).store (.next n) w).setPprev n p := by
      cases r with
      | link =>
        simp only [Record.settle, Links.store, Links.setPprev, Links.mk.injEq, and_true]
        exact update_comm (Ne.symm hr) _ _ _
      | back =>
        simp only [Record.settle, Links.store, Links.setPprev, Links.mk.injEq, true_and]
        exact update_comm (Ne.symm hr) _ _ _
    rw [List.foldl_cons, hcomm, ih fun r hr => hrecs r (by simp [hr])]
    rfl

/-- An edit recorded after others acts as if it were made after their commit, when what it
read is what they leave there. -/
theorem blSwAddHead_commit (t : SwTxn H N) (hrecs : ∀ r ∈ t.recs, r.Avoids n)
    (hfirst : t.commit.first h = t.mem.first h) :
    (blSwAddHead t n h).commit = (blSwAddHead ⟨t.commit, []⟩ n h).commit := by
  simp only [blSwAddHead, hfirst]
  simp only [SwTxn.commit, List.foldl_append, List.nil_append, foldl_settle_prepublish hrecs]

theorem blSwReplace_commit (t : SwTxn H N) (hrecs : ∀ r ∈ t.recs, r.Avoids new)
    (hpprev : t.commit.pprev old = t.mem.pprev old) (hnext : t.commit.next old = t.mem.next old) :
    (blSwReplace t old new).commit = (blSwReplace ⟨t.commit, []⟩ old new).commit := by
  simp only [blSwReplace, hpprev, hnext]
  simp only [SwTxn.commit, List.foldl_append, List.nil_append, foldl_settle_prepublish hrecs]

omit [DecidableEq H] [DecidableEq N] in
theorem blSwDelMarked_avoids (hF : Family L c) (hold : old ∈ c h) (hnew : ∀ k, new ∉ c k) :
    ∀ r ∈ (blSwDelMarked ⟨L, []⟩ old).recs, r.Avoids new := by
  obtain ⟨e, hpp, -, hfresh, -, hnextFresh⟩ := hF.edit_facts hold
  have hne : Slot.next (H := H) old ≠ .next new := by
    rintro ⟨⟩
    exact hnew h hold
  have hnn : L.next old ≠ some new := hnextFresh new hnew
  cases hm : L.next old <;>
    simp_all [blSwDelMarked, linkRecord, backRecord, Record.Avoids, hfresh new hnew]

theorem blSwReplace_avoids (hR : Ready L old n) :
    ∀ r ∈ (blSwReplace ⟨L, []⟩ old new).recs, r.Avoids n := by
  obtain ⟨⟨e, hpp, -, hen⟩, -, hnn, hon⟩ := hR
  have hne : Slot.next (H := H) old ≠ .next n := by
    rintro ⟨⟩
    exact hon rfl
  cases hm : L.next old <;>
    simp_all [blSwReplace, linkRecord, backRecord, Record.Avoids]

theorem blSwMove_swapped (hF : Family L c) (hold : old ∈ c h) (hnew : ∀ k, new ∉ c k) {h' : H}
    (hh : h' ≠ h) :
    Swapped L (blSwAddHead (blSwDelMarked ⟨L, []⟩ old) new h').commit old new h h' := by
  have hE := blSwDelMarked_erased hF hold
  obtain ⟨c₁, hF₁, hmem₁⟩ := hF.erased hold hE
  obtain ⟨e, hpp, -⟩ := hF.edit_facts hold
  have hslot : L.pprev old ≠ some (.first h') := by
    intro he
    exact hF.pprev_ne_first hold he hh rfl
  have hfirst : (blSwDelMarked ⟨L, []⟩ old).commit.first h' = L.first h' := by
    rw [Links.first, hE.word _ hslot (by simp), Links.first]
  rw [blSwAddHead_commit _ (blSwDelMarked_avoids hF hold hnew) hfirst]
  exact .moved hE (blSwAddHead_inserted hF₁ fun k hk => hnew k ((hmem₁ k new).mp hk).1)

section

variable {olda newa oldb newb : N} {h₁ h₂ : H}

theorem blSwReplace_twice (ha : Ready L olda newa) (hb : Ready L oldb newb)
    (hx : Ready L olda newb) (hold : olda ≠ oldb) (hne : newa ≠ oldb)
    (hab : L.next olda ≠ some oldb) (hslot : L.pprev olda ≠ some (.next oldb)) :
    ∃ L₁, Replaced L L₁ olda newa ∧
      Replaced L₁ (blSwReplace (blSwReplace ⟨L, []⟩ olda newa) oldb newb).commit oldb newb := by
  have hR := blSwReplace_replaced ha
  have hpprev : (blSwReplace ⟨L, []⟩ olda newa).commit.pprev oldb = L.pprev oldb :=
    hR.pprev _ hold.symm hne.symm hab
  have hnext : (blSwReplace ⟨L, []⟩ olda newa).commit.next oldb = L.next oldb := by
    rw [Links.next, hR.word _ hslot (by simpa using hold.symm) (by simpa using hne.symm), Links.next]
  have hmemp : (blSwReplace ⟨L, []⟩ olda newa).mem.pprev oldb = L.pprev oldb := by
    simp [blSwReplace, hne.symm]
  have hmemn : (blSwReplace ⟨L, []⟩ olda newa).mem.next oldb = L.next oldb := by
    simp [blSwReplace, Links.next, hne.symm]
  have hb₁ : Ready (blSwReplace ⟨L, []⟩ olda newa).commit oldb newb := by
    refine ⟨?_, ?_, ?_, hb.ne⟩
    · rw [hpprev]
      exact hb.slot
    · rw [hnext]
      exact hb.self
    · rw [hnext]
      exact hb.next
  refine ⟨_, hR, ?_⟩
  rw [blSwReplace_commit _ (blSwReplace_avoids hx) (hpprev.trans hmemp.symm)
    (hnext.trans hmemn.symm)]
  exact blSwReplace_replaced hb₁

theorem blSwReplaceAdj_twice (ha : Ready L olda newa) (hb : Ready L oldb newb)
    (hx : Ready L olda newb) (hba' : oldb ≠ newa) (hnew : newa ≠ newb)
    (hab : L.next olda = some oldb) (hslot : L.pprev olda ≠ some (.next oldb)) :
    ∃ L₁, Replaced L L₁ olda newa ∧
      Replaced L₁ (blSwReplaceAdj ⟨L, []⟩ olda newa oldb newb).commit oldb newb := by
  have hR := blSwReplace_replaced ha
  have hold : olda ≠ oldb := by
    rintro rfl
    exact ha.self hab
  obtain ⟨⟨e, hpp, hself, hea⟩, -, -, haa⟩ := ha
  have heb : e ≠ .next oldb := fun he => hslot (he ▸ hpp)
  have heb' : e ≠ .next newb := by
    obtain ⟨e', hpp', -, he'⟩ := hx.slot
    obtain rfl : e = e' := Option.some.inj (hpp.symm.trans hpp')
    exact he'
  have hab' : olda ≠ newb := hx.ne
  have hbb : oldb ≠ newb := hb.ne
  have hback₁ : (blSwReplace ⟨L, []⟩ olda newa).commit.pprev =
      update (update L.pprev newa (some e)) oldb (some (.next newa)) := by
    simp [blSwReplace, SwTxn.commit, hab, hpp, linkRecord, backRecord, Record.settle]
  have hnext₁ : (blSwReplace ⟨L, []⟩ olda newa).commit.next oldb = L.next oldb := by
    rw [Links.next, hR.word _ (by simpa [hpp] using heb) (by simpa using hold.symm)
      (by simpa using hba'), Links.next]
  have hword : (blSwReplaceAdj ⟨L, []⟩ olda newa oldb newb).commit.word =
      update (update (update (update (update L.word
        (.next newa) ⟨some newb, false⟩) (.next newb) ⟨L.next oldb, false⟩) e ⟨some newa, false⟩)
        (.next olda) ⟨some oldb, true⟩) (.next oldb) ⟨L.next oldb, true⟩ := by
    cases hs : L.next oldb <;>
      simp [blSwReplaceAdj, SwTxn.commit, hs, hpp, linkRecord, backRecord, Record.settle]
  have hback : (blSwReplaceAdj ⟨L, []⟩ olda newa oldb newb).commit.pprev =
      ((backRecord (L.next oldb) none (some (.next newb))).foldl Record.settle
        ((L.setPprev newa (some e)).setPprev newb (some (.next newa)))).pprev := by
    cases hs : L.next oldb <;>
      simp [blSwReplaceAdj, SwTxn.commit, hs, hpp, linkRecord, backRecord, Record.settle]
  refine ⟨_, hR, ⟨fun t ht => ?_, ?_, ?_, fun t ht hto htn => ?_, ?_, fun m hm => ?_,
    fun m hmo hmn hm => ?_⟩⟩
  · obtain rfl : Slot.next newa = t := by simpa [hback₁] using ht
    simp [hword, hnew, haa.symm, hba'.symm, hea.symm]
  · simp [hword, hnext₁]
  · simp [hword, hnext₁, hab'.symm, hbb.symm, heb'.symm]
  · have hta : t ≠ .next newa := by simpa [hback₁, eq_comm] using ht
    rcases eq_or_ne t e with rfl | hte
    · rw [hR.slot _ hpp, hword]
      simp [hself, heb]
    · rcases eq_or_ne t (.next olda) with rfl | hto'
      · rw [hR.node, hab, hword]
        simp [hold]
      · rw [hR.word t (by simpa [hpp] using hte.symm) hto' hta, hword]
        simp [hto, htn, hta, hte, hto']
  · cases hs : L.next oldb with
    | none => simp [hback, hback₁, hs, backRecord]
    | some m =>
      have hm : newb ≠ m := fun he => hb.next (he ▸ hs)
      simp [hback, hback₁, hs, backRecord, Record.settle, hm]
  · rw [hnext₁] at hm
    simp [hback, hm, backRecord, Record.settle]
  · rw [hnext₁] at hm
    cases hs : L.next oldb with
    | none => simp [hback, hback₁, hs, backRecord, hmo, hmn]
    | some m' =>
      have hm' : m ≠ m' := fun he => hm (he ▸ hs)
      simp [hback, hback₁, hs, backRecord, Record.settle, hmo, hmn, hm']

theorem blSwReplace2_exchanged {xs : List N} (hC : Chain L h xs) (hola : olda ∈ xs)
    (holb : oldb ∈ xs) (hnea : newa ∉ xs) (hneb : newb ∉ xs) (hold : olda ≠ oldb)
    (hnew : newa ≠ newb) :
    Exchanged L (blSwReplace2 ⟨L, []⟩ olda newa oldb newb).commit olda newa oldb newb := by
  have hab' : oldb ≠ newa := fun he => hnea (he ▸ holb)
  have hba' : olda ≠ newb := fun he => hneb (he ▸ hola)
  unfold blSwReplace2
  split_ifs with hab hba
  · have hslot : L.pprev olda ≠ some (.next oldb) := fun he =>
      hC.next_asymm hola hab (hC.next_of_pprev hola he)
    exact .inl (blSwReplaceAdj_twice (hC.ready hola hnea) (hC.ready holb hneb)
      (hC.ready hola hneb) hab' hnew hab hslot)
  · have hslot : L.pprev oldb ≠ some (.next olda) := fun he =>
      hC.next_asymm holb hba (hC.next_of_pprev holb he)
    exact .inr (blSwReplaceAdj_twice (hC.ready holb hneb) (hC.ready hola hnea)
      (hC.ready holb hnea) hba' hnew.symm hba hslot)
  · exact .inl (blSwReplace_twice (hC.ready hola hnea) (hC.ready holb hneb) (hC.ready hola hneb)
      hold hab'.symm hab fun he => hba (hC.next_of_pprev hola he))

theorem blSwReplace_exchanged (hF : Family L c) (hola : olda ∈ c h₁) (holb : oldb ∈ c h₂)
    (hnea : ∀ k, newa ∉ c k) (hneb : ∀ k, newb ∉ c k) (hh : h₁ ≠ h₂) :
    Exchanged L (blSwReplace (blSwReplace ⟨L, []⟩ olda newa) oldb newb).commit
      olda newa oldb newb := by
  refine .inl (blSwReplace_twice (hF.ready hola hnea) (hF.ready holb hneb) (hF.ready hola hneb)
    ?_ (fun he => hnea h₂ (he ▸ holb)) (fun he => ?_) fun he => ?_)
  · rintro rfl
    exact hh (hF.disjoint _ _ _ hola holb)
  · exact hh (hF.disjoint _ _ _ (hF.next_mem hola he) holb)
  · exact hh (hF.disjoint _ _ _ hola (hF.next_mem holb (hF.next_of_pprev hola he)))

end

end

end TrieBenchmark.Bucketlock
