import TrieBenchmark.Txn.Commit

/-!
What one step of a thread can do to the cache. `Effect` lists the cases with what the step has
checked, `IndexStep` says what they have in common for a reader.
-/

namespace TrieBenchmark.Txn

open Cache Edits

variable {Name : Type} {d d' : Cache Name} {arm : Arm}

inductive Checked (Name : Type) where
  | rename (m : Move Name) (neg : Option ℕ)
  | flip (host : ℕ)
  | add (parent : ℕ)

def Checked.OfRename (P : Move Name → Option ℕ → Prop) : Checked Name → Prop
  | .rename m neg => P m neg
  | _ => True

/-- The effects of one step. `C` is asked of the commits; the options name the host
whose inline name is written and the host that is linked again. -/
inductive Effect (arm : Arm) (C : Checked Name → Prop) (d : Cache Name) :
    Option ℕ → Option ℕ → Cache Name → Prop where
  | read : Effect arm C d none none d
  | flag (a : ℕ) (b : Bool) : Effect arm C d none none (d.setMoving a b)
  | ident (a id : ℕ) : Effect arm C d none none (d.modify a fun e => { e with id := id })
  | flip (host : ℕ) (negative : Bool) : C (.flip host) →
      (negative = true → (d.dentry host).isdir = true → d.kids host = []) →
      Effect arm C d none none (d.flip host negative)
  | add (parent : ℕ) (name : Name) (id : ℕ) (isdir positive : Bool) :
      parent < d.fresh → C (.add parent) → (arm = .mark → (d.dentry parent).neg = false) →
      d.sealed parent = false →
      (∀ a, d.linked a → ¬ ((d.dentry a).iparent = parent ∧ (d.dentry a).iname = name)) →
      Effect arm C d none none (d.addCommit parent name id isdir positive)
  | remove (top : ℕ) (sealIt : Bool) : d.linked top →
      ((d.dentry (d.hostOf top)).isdir = true → sealIt = true) →
      (sealIt = true → d.kids (d.hostOf top) = []) →
      Effect arm C d none none (d.removeCommit top (d.hostOf top) sealIt)
  | stack (m : Move Name) (top : ℕ) (neg : Option ℕ) : d.linked top →
      (d.dentry top).iparent = m.fromParent → (d.dentry top).iname = m.fromName →
      Claim d m top neg → m.newParent < d.fresh → d.sealed m.newParent = false →
      (∀ a, neg = some a → d.hostOf a = a ∧ (d.dentry a).isdir = false) → C (.rename m neg) →
      Effect arm C d none none (d.stackCommit arm m top neg)
  | exchange (x : Xchg Name) (topa topb : ℕ) : XchgTops d x topa topb →
      Effect arm C d none none (d.exchangeCommit arm x topa topb)
  | name (n : ℕ) : n < d.fresh → ¬ d.linked (d.hostOf n) →
      Effect arm C d (some (d.hostOf n)) none (d.setIname (d.hostOf n) (d.dentry n).iname)
  | swap (n : ℕ) : n < d.fresh → ¬ d.linked (d.hostOf n) →
      Effect arm C d (some (d.hostOf n)) none (d.setIparent (d.hostOf n) (d.dentry n).iparent)
  | fold (n : ℕ) : d.linked n → (d.dentry n).shell = true →
      (d.dentry (d.hostOf n)).iname = (d.dentry n).iname →
      (arm ≠ .mark → (d.dentry (d.hostOf n)).iparent = (d.dentry n).iparent) →
      Effect arm C d (some (d.hostOf n)) (some (d.hostOf n)) (d.foldCommit arm n)

structure IndexStep (d : Cache Name) (touched back : Option ℕ) (d' : Cache Name) : Prop where
  bucketOf : d'.bucketOf = d.bucketOf
  fresh : d.fresh ≤ d'.fresh
  kind : SameKind d d'
  key : ∀ a < d.fresh, touched ≠ some a →
    (d'.dentry a).iparent = (d.dentry a).iparent ∧ (d'.dentry a).iname = (d.dentry a).iname
  came : ∀ a, d'.linked a → d.linked a ∨ d.fresh ≤ a ∨ back = some a
  next : ∀ a, touched ≠ some a →
    d'.next a = d.next a ∨ ∀ b, d'.next a = some b → d'.linked b ∨ d.linked b
  nextDead : ∀ a, touched ≠ some a → ¬ d'.linked a → d'.next a = d.next a
  order : ∀ c h a, h ∈ d.hash c → h ∈ d'.hash c → a ∈ d'.hash c → Before (d'.hash c) a h ∨
    ∃ x ∈ d.hash c, (d.dentry x).iparent = (d'.dentry a).iparent ∧
      (d.dentry x).iname = (d'.dentry a).iname ∧ ¬ Before (d.hash c) x h

theorem Edited.indexStep {e : Edit ℕ} (hE : Edited d e d') (hI : IndexOk d) {touched : Option ℕ}
    (hinn : ∀ a ∈ e.inn, d.fresh ≤ a ∨ touched = some a) : IndexStep d touched touched d' := by
  refine ⟨hE.bucketOf, hE.fresh, hE.kind, fun a ha ht => hE.key a ha fun hi => ?_, fun a ha => ?_,
    fun a _ => hE.next_stable hI, fun a _ => hE.next_dead hI,
    fun c h a hh hh' ha => hE.order hI hh hh' ha⟩
  · rcases hinn a hi with hge | he
    · exact Nat.not_le.mpr ha hge
    · exact ht he
  · rcases (hE.linked_iff hI).mp ha with ⟨hl, -⟩ | hi
    · exact .inl hl
    · exact .inr (hinn a hi)

theorem IndexStep.refl (d : Cache Name) : IndexStep d none none d := by
  refine ⟨rfl, Nat.le_refl _, fun _ _ => ⟨rfl, rfl, rfl⟩, fun _ _ _ => ⟨rfl, rfl⟩,
    fun _ h => .inl h, fun _ _ => .inl rfl, fun _ _ _ => rfl, fun c h a _ _ ha => ?_⟩
  by_cases hb : Before (d.hash c) a h
  · exact .inl hb
  · exact .inr ⟨a, ha, rfl, rfl, hb⟩

theorem IndexStep.modify (hI : IndexOk d) (a : ℕ) (f : Dentry Name → Dentry Name)
    (hkind : ∀ e, (f e).shell = e.shell ∧ (f e).host = e.host ∧ (f e).isdir = e.isdir)
    {touched : Option ℕ}
    (hkey : touched = some a ∧ ¬ d.linked a ∨
      ∀ e, (f e).iparent = e.iparent ∧ (f e).iname = e.iname) :
    IndexStep d touched none (d.modify a f) := by
  have hother : ∀ b, b ≠ a → ((d.modify a f).dentry b).iparent = (d.dentry b).iparent ∧
      ((d.modify a f).dentry b).iname = (d.dentry b).iname := by
    intro b hne
    rw [modify_of_ne _ _ _ _ hne]
    exact ⟨rfl, rfl⟩
  have hself : (touched = some a ∧ ¬ d.linked a) ∨
      ((d.modify a f).dentry a).iparent = (d.dentry a).iparent ∧
      ((d.modify a f).dentry a).iname = (d.dentry a).iname := by
    rw [modify_self]
    exact hkey.imp id fun hk => hk _
  have hsame : ∀ b, touched ≠ some b → ((d.modify a f).dentry b).iparent = (d.dentry b).iparent ∧
      ((d.modify a f).dentry b).iname = (d.dentry b).iname := by
    intro b hb
    rcases eq_or_ne b a with rfl | hne
    · exact hself.resolve_left fun h => hb h.1
    · exact hother b hne
  have hin : ∀ b, d.linked b → ((d.modify a f).dentry b).iparent = (d.dentry b).iparent ∧
      ((d.modify a f).dentry b).iname = (d.dentry b).iname := by
    intro b hb
    rcases eq_or_ne b a with rfl | hne
    · exact hself.resolve_left fun h => h.2 hb
    · exact hother b hne
  have hnext : ∀ b, touched ≠ some b → (d.modify a f).next b = d.next b := by
    intro b hb
    obtain ⟨hp, hn⟩ := hsame b hb
    have hbucket : (d.modify a f).bucket b = d.bucket b := by
      show d.bucketOf _ _ = d.bucketOf _ _
      rw [hp, hn]
    simp only [Cache.next, hbucket]
    rfl
  refine ⟨rfl, Nat.le_refl _, fun b _ => ?_, fun b _ => hsame b, fun b hb => .inl ?_,
    fun b hb => .inl (hnext b hb), fun b hb _ => hnext b hb, fun c h b hh _ hb => ?_⟩
  · rcases eq_or_ne b a with rfl | hne
    · rw [modify_self]
      exact hkind _
    · rw [modify_of_ne _ _ _ _ hne]
      exact ⟨rfl, rfl, rfl⟩
  · have hm : b ∈ d.hash ((d.modify a f).bucket b) := hb
    exact hI.linked_of_mem hm
  · have hb' : b ∈ d.hash c := hb
    by_cases hbh : Before (d.hash c) b h
    · exact .inl hbh
    · obtain ⟨hp, hn⟩ := hin b (hI.linked_of_mem hb')
      exact .inr ⟨b, hb', hp.symm, hn.symm, hbh⟩

/-- What left the index during a step stays out of it: only the touched host comes back. -/
theorem IndexStep.dead {touched back : Option ℕ} (hH : IndexStep d touched back d')
    (hI' : IndexOk d') {a : ℕ} (ha : a < d.fresh) (hr : a ≠ root) (hb : back ≠ some a)
    (hl : ¬ d.linked a) : ¬ d'.linked a ∧ d'.mark a = true := by
  have hno : ¬ d'.linked a := by
    intro h
    rcases hH.came a h with h | h | h
    · exact hl h
    · exact Nat.not_le.mpr ha h
    · exact hb h
  refine ⟨hno, ?_⟩
  cases hm : d'.mark a with
  | true => rfl
  | false => exact absurd ((hI'.live a (Nat.lt_of_lt_of_le ha hH.fresh) hr).mp hm) hno

namespace Effect

variable {C : Checked Name → Prop} {touched back : Option ℕ}

theorem indexOk (hE : Effect arm C d touched back d') (hI : IndexOk d) : IndexOk d' := by
  cases hE with
  | read => exact hI
  | flag | ident | flip => exact hI.modify ⟨rfl, rfl, rfl⟩ (.inr ⟨rfl, rfl⟩)
  | add _ _ _ _ _ _ _ _ _ hname => exact hI.add hname
  | remove _ _ ht => exact hI.remove ht
  | stack _ _ _ ht _ _ hC => exact hI.stack ht hC
  | exchange _ _ _ hX => exact hI.exchange hX
  | name _ _ hh | swap _ _ hh => exact hI.modify ⟨rfl, rfl, rfl⟩ (.inl hh)
  | fold _ hn hs hname hparent => exact hI.fold hn hs hname hparent

theorem indexStep (hE : Effect arm C d touched back d') (hI : IndexOk d) :
    IndexStep d touched back d' := by
  cases hE with
  | read => exact .refl d
  | flag a | ident a =>
    refine .modify hI a _ (fun _ => ?_) (.inr fun _ => ?_)
    · exact ⟨rfl, rfl, rfl⟩
    · exact ⟨rfl, rfl⟩
  | flip host =>
    refine .modify hI host _ (fun _ => ?_) (.inr fun _ => ?_)
    · exact ⟨rfl, rfl, rfl⟩
    · exact ⟨rfl, rfl⟩
  | add _ _ _ _ _ _ _ _ _ hname =>
    refine (hI.add_edited hname).indexStep hI fun a ha => .inl ?_
    obtain rfl : a = d.fresh := by simpa [Edit.inn] using ha
    exact Nat.le_refl _
  | remove _ _ ht => exact (hI.remove_edited ht).indexStep hI (by simp [Edit.inn])
  | stack _ _ neg ht _ _ hC =>
    refine (hI.stack_edited ht hC).indexStep hI fun a ha => .inl ?_
    obtain rfl : a = d.fresh := by
      cases neg <;> simpa [Edit.inn] using ha
    exact Nat.le_refl _
  | exchange _ _ _ hX =>
    refine (hI.exchange_edited hX).indexStep hI fun a ha => .inl ?_
    have : a = d.fresh + 1 ∨ a = d.fresh := by simpa [Edit.inn] using ha
    omega
  | name _ _ hh | swap _ _ hh =>
    refine .modify hI _ _ (fun _ => ?_) (.inl ⟨rfl, hh⟩)
    exact ⟨rfl, rfl, rfl⟩
  | fold n hn hs hname hparent =>
    refine (hI.fold_edited hn hs hname hparent).indexStep hI fun a ha => .inr ?_
    obtain rfl : a = d.hostOf n := by simpa [Edit.inn] using ha
    rfl

end Effect

def ParentsOk (d : Cache Name) : Prop :=
  ∀ a, d.linked a → (d.dentry a).iparent < d.fresh

theorem Edited.parentsOk {e : Edit ℕ} (hE : Edited d e d') (hI : IndexOk d) (hp : ParentsOk d)
    (hnew : ∀ b ∈ e.new, (d'.dentry b).iparent < d'.fresh) : ParentsOk d' := by
  intro a ha
  rcases hE.linked_origin hI ha with hb | ⟨x, hx, hs⟩
  · exact hnew a hb
  · rw [(hE.slot_key hI hx hs).1]
    exact Nat.lt_of_lt_of_le (hp x hx) hE.fresh

theorem ParentsOk.modify (hI : IndexOk d) (hp : ParentsOk d) {a : ℕ}
    {f : Dentry Name → Dentry Name} (hf : ¬ d.linked a ∨ ∀ e, (f e).iparent = e.iparent) :
    ParentsOk (d.modify a f) := by
  intro b hb
  have hl : d.linked b := hI.linked_of_mem (b := (d.modify a f).bucket b) hb
  rcases eq_or_ne b a with rfl | hne
  · rw [modify_self, hf.resolve_left (fun h => h hl)]
    exact hp b hl
  · rw [modify_of_ne _ _ _ _ hne]
    exact hp b hl

theorem Effect.parentsOk {C : Checked Name → Prop} {touched back : Option ℕ}
    (hE : Effect arm C d touched back d') (hI : IndexOk d) (hp : ParentsOk d) : ParentsOk d' := by
  cases hE with
  | read => exact hp
  | flag | ident | flip => exact hp.modify hI (.inr fun _ => rfl)
  | add _ _ _ _ _ hlt _ _ _ hname =>
    refine (hI.add_edited hname).parentsOk hI hp fun b hb => ?_
    obtain rfl : b = d.fresh := by simpa using hb
    rw [addCommit_new, addCommit_fresh]
    exact Nat.lt_succ_of_lt hlt
  | remove _ _ ht => exact (hI.remove_edited ht).parentsOk hI hp (by simp)
  | stack _ top _ ht _ _ hC hlt =>
    refine (hI.stack_edited ht hC).parentsOk hI hp fun b hb => ?_
    obtain rfl : b = d.fresh := by simpa using hb
    rw [stackCommit_new (hI.host_lt ht), stackCommit_fresh]
    exact Nat.lt_succ_of_lt hlt
  | exchange _ _ _ hX => exact (hI.exchange_edited hX).parentsOk hI hp (by simp)
  | name _ _ hh | swap _ _ hh => exact hp.modify hI (.inl hh)
  | fold _ hn hs hname hparent =>
    exact (hI.fold_edited hn hs hname hparent).parentsOk hI hp (by simp)

end TrieBenchmark.Txn
