import TrieBenchmark.Txn.Guards

/-!
What a lookup may answer, and its walk along one bucket chain: as long as the name it looks for
is held by a positive entry, the walk is bound to meet a node of that name.
-/

namespace TrieBenchmark.Txn

open Edits

variable {Name : Type} {d d' : Cache Name} {arm : Arm} {touched back : Option ℕ} {S S' : Set ℕ}

section Spec

variable [DecidableEq Name] {latched : List (ℕ × ℕ)} {names : List Name} {cur : ℕ}

def Walked (d : Cache Name) : ℕ → List Name → List ℕ → Prop
  | _, [], [] => True
  | cur, name :: names, host :: hosts =>
    d.childLookup cur name = some host ∧ Walked d host names hosts
  | _, _, _ => False

def Missing (d : Cache Name) (cur : ℕ) (name : Name) : Prop :=
  ∀ host ∈ d.childLookup cur name, (d.raw host).neg = true

def Answers (d : Cache Name) (path : List Name) (hosts : List ℕ) : DcResult → Prop
  | .positive => Walked d root path hosts ∧ ∀ host ∈ hosts.getLast?, (d.raw host).neg = false
  | .negative => Walked d root path hosts ∧ ∃ host ∈ hosts.getLast?, (d.raw host).neg = true
  | .absent => Walked d root (path.take hosts.length) hosts ∧
      ∃ name ∈ path[hosts.length]?, Missing d (hosts.getLastD root) name

instance Walked.decidable (d : Cache Name) : ∀ cur names hosts, Decidable (Walked d cur names hosts)
  | _, [], [] => .isTrue trivial
  | _, _ :: names, host :: hosts =>
    have := Walked.decidable d host names hosts
    inferInstanceAs (Decidable (_ ∧ _))
  | _, [], _ :: _ => .isFalse id
  | _, _ :: _, [] => .isFalse id

instance (d : Cache Name) (cur : ℕ) (name : Name) : Decidable (Missing d cur name) :=
  inferInstanceAs (Decidable (∀ host ∈ d.childLookup cur name, _))

instance (d : Cache Name) (path : List Name) (hosts : List ℕ) (res : DcResult) :
    Decidable (Answers d path hosts res) := by
  cases res with
  | positive => exact inferInstanceAs (Decidable (_ ∧ ∀ host ∈ hosts.getLast?, _))
  | negative => exact inferInstanceAs (Decidable (_ ∧ ∃ host ∈ hosts.getLast?, _))
  | absent => exact inferInstanceAs (Decidable (_ ∧ ∃ name ∈ path[hosts.length]?, _))

end Spec

def Latches (d : Cache Name) : ℕ → List Name → List (ℕ × ℕ) → Prop
  | _, [], [] => True
  | cur, name :: names, p :: latched =>
    ((d.dentry p.1).iparent = cur ∧ (d.dentry p.1).iname = name ∧ d.hostOf p.1 = p.2) ∧
      Latches d p.2 names latched
  | _, _, _ => False

def endHost (cur : ℕ) (latched : List (ℕ × ℕ)) : ℕ :=
  (latched.map Prod.snd).getLastD cur

def StateAt (v : Cache Name) (latched : List (ℕ × ℕ)) (res : DcResult) : Prop :=
  match latched.getLast? with
  | none => res = .positive
  | some p => res = if (v.raw p.2).neg then .negative else .positive

theorem Walked.answers [DecidableEq Name] {path : List Name}
    {res : DcResult} (hW : Walked d root path (latched.map Prod.snd))
    (hst : StateAt d latched res) : Answers d path (latched.map Prod.snd) res := by
  unfold StateAt at hst
  have hlast : (latched.map Prod.snd).getLast? = latched.getLast?.map Prod.snd := by simp
  cases hg : latched.getLast? with
  | none =>
    rw [hg] at hst hlast
    subst hst
    exact ⟨hW, by simp [hlast]⟩
  | some p =>
    rw [hg] at hst hlast
    cases hneg : (d.raw p.2).neg with
    | true =>
      simp only [hneg, if_true] at hst
      subst hst
      exact ⟨hW, p.2, by simp [hlast], hneg⟩
    | false =>
      simp only [hneg, Bool.false_eq_true, if_false] at hst
      subst hst
      exact ⟨hW, by simp [hlast, hneg]⟩

theorem Latches.append {top : ℕ} {name : Name} (hL : Latches d cur names latched)
    (hp : (d.dentry top).iparent = endHost cur latched) (hn : (d.dentry top).iname = name) :
    Latches d cur (names ++ [name]) (latched ++ [(top, d.hostOf top)]) := by
  induction names generalizing cur latched with
  | nil =>
    cases latched with
    | nil => exact ⟨⟨hp, hn, rfl⟩, trivial⟩
    | cons => cases hL
  | cons _ _ ih =>
    cases latched with
    | nil => cases hL
    | cons _ latched =>
      refine ⟨hL.1, ih hL.2 ?_⟩
      rw [hp]
      cases latched <;> rfl

theorem Latches.length (hL : Latches d cur names latched) : names.length = latched.length := by
  induction names generalizing cur latched with
  | nil =>
    cases latched with
    | nil => rfl
    | cons => cases hL
  | cons _ _ ih =>
    cases latched with
    | nil => cases hL
    | cons => simpa using ih hL.2

theorem Latches.congr (hL : Latches d cur names latched)
    (hsame : ∀ p ∈ latched, (d'.dentry p.1).iparent = (d.dentry p.1).iparent ∧
      (d'.dentry p.1).iname = (d.dentry p.1).iname ∧ d'.hostOf p.1 = d.hostOf p.1) :
    Latches d' cur names latched := by
  induction names generalizing cur latched with
  | nil =>
    cases latched with
    | nil => trivial
    | cons => cases hL
  | cons _ _ ih =>
    cases latched with
    | nil => cases hL
    | cons p =>
      obtain ⟨hp, hn, hh⟩ := hsame p List.mem_cons_self
      refine ⟨⟨hp.trans hL.1.1, hn.trans hL.1.2.1, hh.trans hL.1.2.2⟩, ih hL.2 ?_⟩
      exact fun q hq => hsame q (List.mem_cons_of_mem p hq)

theorem Latches.walked [DecidableEq Name] (hI : IndexOk d) (hL : Latches d cur names latched)
    (hl : ∀ p ∈ latched, d.linked p.1) : Walked d cur names (latched.map Prod.snd) := by
  induction names generalizing cur latched with
  | nil =>
    cases latched with
    | nil => trivial
    | cons => cases hL
  | cons _ _ ih =>
    cases latched with
    | nil => cases hL
    | cons p =>
      have hf := hI.findTop_eq_some.mpr ⟨hl p List.mem_cons_self, hL.1.1, hL.1.2.1⟩
      refine ⟨?_, ih hL.2 fun q hq => hl q (List.mem_cons_of_mem p hq)⟩
      rw [Cache.childLookup, hf, Option.map_some, hL.1.2.2]

def SameBucket (d : Cache Name) (S : Set ℕ) : Prop :=
  ∀ a ∈ S, ∀ b, d.next a = some b → d.bucket b = d.bucket a

theorem IndexOk.bucket_next (hI : IndexOk d) {a b : ℕ} (ha : d.linked a) (hb : d.next a = some b) :
    d.bucket b = d.bucket a := by
  rw [Cache.next_of_linked ha] at hb
  exact hI.home _ b (succ_mem hb)

theorem IndexStep.bucket (hH : IndexStep d touched back d') {a : ℕ} (ha : a < d.fresh)
    (ht : touched ≠ some a) : d'.bucket a = d.bucket a := by
  obtain ⟨hp, hn⟩ := hH.key a ha ht
  rw [Cache.bucket, Cache.bucket, hH.bucketOf, hp, hn]

theorem SameBucket.step (hB : SameBucket d S) (hM : Meets d S) (hI' : IndexOk d')
    (hH : IndexStep d touched back d') (hf : Spares touched back S) :
    SameBucket d' (S ∪ {a | d'.linked a}) := by
  intro a ha b hb
  by_cases hl : d'.linked a
  · exact hI'.bucket_next hl hb
  · have haS : a ∈ S := ha.resolve_right hl
    rw [hH.nextDead a (hf.key a haS) hl] at hb
    have hbS := hM.closed a haS b hb
    rw [hH.bucket (hM.settled a haS).1 (hf.key a haS), hH.bucket (hM.settled b hbS).1 (hf.key b hbS)]
    exact hB a haS b hb

def Sought (d : Cache Name) (S : Set ℕ) (cur : ℕ) (name : Name) (n : ℕ) : Prop :=
  n ∈ S ∧ (d.dentry n).iparent = cur ∧ (d.dentry n).iname = name

/-- A walk of the chain of `(cur, name)` that stands at `n` will meet a sought node. -/
structure OnTrack (d : Cache Name) (S : Set ℕ) (cur : ℕ) (name : Name) (n : ℕ) : Prop where
  mem : n ∈ S
  bucket : d.bucket n = d.bucketOf cur name
  ahead : Ahead (d.hash (d.bucketOf cur name)) d.after (Sought d S cur name) n

namespace OnTrack

variable {cur n : ℕ} {name : Name}

theorem head (hI : IndexOk d) (hM : Meets d S) {z : ℕ} (hz : d.linked z)
    (hp : (d.dentry z).iparent = cur) (hn : (d.dentry z).iname = name) :
    ∃ w, (d.hash (d.bucketOf cur name)).head? = some w ∧ OnTrack d S cur name w := by
  have hmem : z ∈ d.hash (d.bucketOf cur name) := by
    have hb := hz
    rwa [Cache.linked, Cache.bucket, hp, hn] at hb
  cases hh : (d.hash (d.bucketOf cur name)).head? with
  | none =>
    rw [List.head?_eq_none_iff.mp hh] at hmem
    cases hmem
  | some w =>
    have hw := List.mem_of_mem_head? hh
    exact ⟨w, rfl, hM.cover w (hI.linked_of_mem hw), hI.home _ w hw,
      .head hh hmem ⟨hM.cover z hz, hp, hn⟩⟩

theorem next (hI : IndexOk d) (hM : Meets d S) (hB : SameBucket d S)
    (hT : OnTrack d S cur name n) (hno : ¬ Sought d S cur name n) :
    ∃ w, d.next n = some w ∧ OnTrack d S cur name w := by
  obtain ⟨w, hw, hA⟩ := hT.ahead.next (hI.nodup _) hno
  have hnext : d.next n = some w := by
    rw [Cache.next, hT.bucket]
    exact hw
  exact ⟨w, hnext, hM.closed n hT.mem w hnext, (hB n hT.mem w hnext).trans hT.bucket, hA⟩

theorem sought_step (hM : Meets d S) (hH : IndexStep d touched back d')
    (hf : Spares touched back S) {z : ℕ} (hz : Sought d S cur name z) :
    Sought d' (S ∪ {a | d'.linked a}) cur name z := by
  obtain ⟨hp, hn⟩ := hH.key z (hM.settled z hz.1).1 (hf.key z hz.1)
  exact ⟨.inl hz.1, hp.trans hz.2.1, hn.trans hz.2.2⟩

theorem edited {e : Edit ℕ} (hE : Edited d e d') (hI : IndexOk d) (hI' : IndexOk d')
    (hM : Meets d S) (hB : SameBucket d S) (hH : IndexStep d touched back d')
    (hf : Spares touched back S)
    (hkeep : ∀ z, d.linked z → (d.dentry z).iparent = cur → (d.dentry z).iname = name →
      ∃ z', e.slot z = some z')
    (hT : OnTrack d S cur name n) : OnTrack d' (S ∪ {a | d'.linked a}) cur name n := by
  have hbo : d'.bucketOf = d.bucketOf := hH.bucketOf
  refine ⟨.inl hT.mem, ?_, ?_⟩
  · rw [hH.bucket (hM.settled n hT.mem).1 (hf.key n hT.mem), hbo]
    exact hT.bucket
  · rw [hbo]
    have hdead : ∀ w ∈ S, ¬ d.linked w → ¬ d'.linked w := by
      intro w hw hl hl'
      rcases hH.came w hl' with h | h | h
      · exact hl h
      · exact Nat.not_lt.mpr h (hM.settled w hw).1
      · exact hf.back w hw h
    have hA := hT.ahead.mono fun z => sought_step hM hH hf
    refine hA.edit (S := fun w => w ∈ S ∧ d.bucket w = d.bucketOf cur name) (hI.nodup _)
      (hE.hash _) (fun w hw ho => ⟨fun hw' => ?_, ?_⟩) (fun w hw hnl => ⟨fun hw' => ?_, ?_⟩)
      (fun w hw hnl w' ha => ?_) (fun z hz hs => ?_) ⟨hT.mem, hT.bucket⟩
    · -- what leaves the chain is not in the index
      have hi : w ∉ e.inn := fun hi => (hE.inn w hi).1 (hI.linked_of_mem hw)
      exact absurd (hI'.linked_of_mem hw') (by simp [hE.linked_iff hI, ho, hi])
    · rw [hE.after, if_pos ho, Cache.next_of_linked (hI.linked_of_mem hw), hI.home _ w hw]
    · have hl : ¬ d.linked w := by rwa [Cache.linked, hw.2]
      exact hdead w hw.1 hl (hI'.linked_of_mem hw')
    · have hl : ¬ d.linked w := by rwa [Cache.linked, hw.2]
      rw [hE.after, if_neg fun ho => hl (hE.out w ho)]
    · have hl : ¬ d.linked w := by rwa [Cache.linked, hw.2]
      have hnext : d.next w = some w' := (Cache.next_of_not_linked hl).trans ha
      exact ⟨hM.closed w hw.1 w' hnext, (hB w hw.1 w' hnext).trans hw.2⟩
    · have hl := hI.linked_of_mem hz
      obtain ⟨hp, hn⟩ := hE.key_stays hI hl
      obtain ⟨z', hs'⟩ := hkeep z hl (hp.symm.trans hs.2.1) (hn.symm.trans hs.2.2)
      obtain ⟨hp', hn'⟩ := hE.slot_key hI hl hs'
      refine ⟨z', hs', .inr ?_, hp'.trans (hp.symm.trans hs.2.1), hn'.trans (hn.symm.trans hs.2.2)⟩
      rcases Edit.slot_some hs' with ⟨ho, rfl⟩ | hg
      · exact (hE.linked_iff hI).mpr (.inl ⟨hl, ho⟩)
      · exact (hE.linked_iff hI).mpr (.inr (Edit.mem_inn hg))

theorem modify {a : ℕ} {f : Dentry Name → Dentry Name} (hM : Meets d S)
    (hH : IndexStep d touched back (d.modify a f)) (hf : Spares touched back S)
    (hT : OnTrack d S cur name n) :
    OnTrack (d.modify a f) (S ∪ {a' | (d.modify a f).linked a'}) cur name n := by
  refine ⟨.inl hT.mem, ?_, hT.ahead.mono fun z => sought_step hM hH hf⟩
  rw [hH.bucket (hM.settled n hT.mem).1 (hf.key n hT.mem)]
  exact hT.bucket

end OnTrack

section Keeps

variable [DecidableEq Name] {cur : ℕ} {name : Name}

theorem not_missing (hI : IndexOk d) (h : ¬ Missing d cur name) :
    ∃ z, d.linked z ∧ (d.dentry z).iparent = cur ∧ (d.dentry z).iname = name ∧
      (d.raw (d.hostOf z)).neg = false := by
  unfold Missing at h
  push Not at h
  obtain ⟨host, hh, hneg⟩ := h
  obtain ⟨z, hz, rfl⟩ := Option.map_eq_some_iff.mp hh
  obtain ⟨hl, hp, hn⟩ := hI.findTop_eq_some.mp hz
  exact ⟨z, hl, hp, hn, by simpa using hneg⟩

theorem OnTrack.effect {n : ℕ} {C : Checked Name → Prop} (hE : Effect arm C d touched back d')
    (hC : ∀ m neg, C (.rename m neg) → ∀ a, neg = some a → (d.dentry a).neg = true)
    (hI : IndexOk d) (hM : Meets d S) (hB : SameBucket d S) (hf : Spares touched back S)
    (hpos : ¬ Missing d cur name) (hpos' : ¬ Missing d' cur name)
    (hT : OnTrack d S cur name n) : OnTrack d' (S ∪ {a | d'.linked a}) cur name n := by
  have hI' := hE.indexOk hI
  have hH := hE.indexStep hI
  obtain ⟨z₀, hz₀, hp₀, hn₀, hneg₀⟩ := not_missing hI hpos
  obtain ⟨z₁, hz₁, hp₁, hn₁, -⟩ := not_missing hI' hpos'
  -- the holder of the name after the commit is new to the index, or in the old holder's place
  have hkeep : ∀ {e : Edit ℕ}, Edited d e d' → z₁ ∉ e.new → ∀ z, d.linked z →
      (d.dentry z).iparent = cur → (d.dentry z).iname = name → ∃ z', e.slot z = some z' := by
    intro e hEd hnew z hz hp hn
    obtain ⟨x, hx, hs⟩ := (hEd.linked_origin hI hz₁).resolve_left hnew
    obtain ⟨hxp, hxn⟩ := hEd.slot_key hI hx hs
    obtain rfl := hI.unique z x hz hx (hp.trans (hp₁.symm.trans hxp)) (hn.trans (hn₁.symm.trans hxn))
    exact ⟨z₁, hs⟩
  cases hE with
  | read =>
    refine ⟨.inl hT.mem, hT.bucket, hT.ahead.mono fun z hz => ⟨.inl hz.1, hz.2⟩⟩
  | flag | ident | flip | name | swap => exact hT.modify hM hH hf
  | add parent nm id isdir positive _ _ _ _ hname =>
    have hEd : Edited d _ (d.addCommit parent nm id isdir positive) := hI.add_edited hname
    refine hT.edited hEd hI hI' hM hB hH hf (hkeep hEd fun hnew => ?_)
    obtain rfl : z₁ = d.fresh := by simpa using hnew
    rw [Cache.addCommit_new] at hp₁ hn₁
    exact hname z₀ hz₀ ⟨hp₀.trans hp₁.symm, hn₀.trans hn₁.symm⟩
  | remove top sealIt ht =>
    have hEd : Edited d _ (d.removeCommit top (d.hostOf top) sealIt) := hI.remove_edited ht
    exact hT.edited hEd hI hI' hM hB hH hf (hkeep hEd (by simp))
  | stack m top neg ht _ _ hcl _ _ hneg hc =>
    have hEd : Edited d _ (d.stackCommit arm m top neg) := hI.stack_edited ht hcl
    refine hT.edited hEd hI hI' hM hB hH hf (hkeep hEd fun hnew => ?_)
    obtain rfl : z₁ = d.fresh := by simpa using hnew
    rw [Cache.stackCommit_new (hI.host_lt ht)] at hp₁ hn₁
    -- the name is taken over from the negative that is replaced
    have hg := hcl.taken z₀ hz₀ (hp₀.trans hp₁.symm) (hn₀.trans hn₁.symm)
    rw [(hneg z₀ hg).1] at hneg₀
    exact absurd (hC m neg hc z₀ hg) (by simpa [Cache.raw] using hneg₀)
  | exchange x topa topb hX =>
    have hEd : Edited d _ (d.exchangeCommit arm x topa topb) := hI.exchange_edited hX
    exact hT.edited hEd hI hI' hM hB hH hf (hkeep hEd (by simp))
  | fold _ hl hs hname hparent =>
    have hEd := hI.fold_edited hl hs hname hparent
    exact hT.edited hEd hI hI' hM hB hH hf (hkeep hEd (by simp))

end Keeps

end TrieBenchmark.Txn
