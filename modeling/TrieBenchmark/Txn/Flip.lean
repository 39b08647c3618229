import TrieBenchmark.Txn.Invariant

/-!
What an entry was last given. `dc_instantiate` stores the id before its flip, so the id of one
call and the flip of another can meet; the flips themselves and the inline parent that a
TRANSFER hands over are never lost.
-/

namespace TrieBenchmark.Txn

open Cache Function Run

variable {Name : Type} {d d' : Cache Name} {arm : Arm}

structure Content where
  neg : Bool
  id : ℕ
  parent : ℕ
  deriving DecidableEq, Repr

def content (e : Dentry Name) : Content :=
  ⟨e.neg, e.id, e.iparent⟩

structure Log (Name : Type) where
  s : Sys Name
  given : ℕ → Content

/-- What a step gives. An add that returns 0 gives all, a flip that returns 0 the state and with
it the id, a TRANSFER that commits the inline parent. -/
def Pc.gives [DecidableEq Name] (arm : Arm) (d : Cache Name) (pc : Pc Name) (ans : Answer)
    (g : ℕ → Content) : ℕ → Content :=
  let r := stepPc arm d pc ans
  match pc with
  | .addCommit e _ _ =>
    if r.2 = .ret none then update g d.fresh ⟨!e.positive, e.id, e.parent⟩ else g
  | .setCommit host negative id _ =>
    if r.2 = .ret none then
      update g host ⟨negative, if negative then (g host).id else id, (g host).parent⟩
    else g
  | .fldCommit n _ =>
    if d.mark n = false ∧ r.1.mark n = true then
      update g (d.hostOf n) { g (d.hostOf n) with parent := (d.dentry n).iparent }
    else g
  | _ => g

namespace Log

variable [DecidableEq Name]

def init (bucketOf : ℕ → Name → ℕ) (rootname : Name) : Log Name :=
  ⟨Sys.init bucketOf rootname, fun _ => ⟨false, 0, root⟩⟩

def act (arm : Arm) (l : Log Name) (a : Act Name) : Option (Log Name) :=
  (l.s.act arm a).map fun s' => ⟨s', match a with
    | .call _ _ => l.given
    | .step t ans => (l.s.pc t).gives arm l.s.d ans l.given⟩

end Log

def Pc.stores : Pc Name → Option ℕ
  | .setId host false _ _ => some host
  | _ => none

/-- Where `dc_instantiate` stores its id the entry is still negative, and no other call stands
between its own id store and its flip. -/
def Sys.IdAlone (s : Sys Name) : Act Name → Prop
  | .call _ _ => True
  | .step t _ => ∀ host ∈ (s.pc t).stores, (s.d.dentry host).neg = true ∧
      ∀ u ∈ s.rcu.readers, u ≠ t → (s.pc u).stored.map Prod.fst ≠ some host

instance (s : Sys Name) (a : Act Name) : Decidable (s.IdAlone a) :=
  match a with
  | .call _ _ => isTrue trivial
  | .step t _ => inferInstanceAs (Decidable (∀ host ∈ (s.pc t).stores, _))

section Keeps

structure Keeps (d d' : Cache Name) : Prop where
  content : ∀ h < d.fresh, content (d'.dentry h) = content (d.dentry h)
  shell : ∀ h < d.fresh, (d'.dentry h).shell = (d.dentry h).shell
  new : ∀ h < d'.fresh, d.fresh ≤ h → (d'.dentry h).shell = true

theorem Keeps.refl (d : Cache Name) : Keeps d d :=
  ⟨fun _ _ => rfl, fun _ _ => rfl, fun _ h h' => absurd h (Nat.not_lt.mpr h')⟩

theorem Cache.modify_proj {β : Type} (f : Dentry Name → β) {g : Dentry Name → Dentry Name}
    (hg : ∀ e, f (g e) = f e) (a c : ℕ) : f ((d.modify a g).dentry c) = f (d.dentry c) := by
  rcases eq_or_ne c a with rfl | hne
  · rw [modify_self, hg]
  · rw [modify_of_ne _ _ _ _ hne]

theorem Keeps.modify (a : ℕ) {f : Dentry Name → Dentry Name}
    (hf : ∀ e, Txn.content (f e) = Txn.content e ∧ (f e).shell = e.shell) :
    Keeps d (d.modify a f) :=
  ⟨fun h _ => modify_proj Txn.content (fun e => (hf e).1) a h,
    fun h _ => modify_proj Dentry.shell (fun e => (hf e).2) a h,
    fun _ hlt hge => absurd hlt (Nat.not_lt.mpr hge)⟩

theorem Keeps.setMoving (a : ℕ) (b : Bool) : Keeps d (d.setMoving a b) :=
  .modify a fun _ => ⟨rfl, rfl⟩

theorem Keeps.setIname (a : ℕ) (name : Name) : Keeps d (d.setIname a name) :=
  .modify a fun _ => ⟨rfl, rfl⟩

theorem Keeps.remove (top host : ℕ) (sealIt : Bool) : Keeps d (d.removeCommit top host sealIt) := by
  refine ⟨fun h _ => ?_, fun h _ => ?_, fun h hlt hge => ?_⟩
  · rw [removeCommit_dentry]
  · rw [removeCommit_dentry]
  · rw [removeCommit_fresh] at hlt
    exact absurd hlt (Nat.not_lt.mpr hge)

theorem Cache.stackCommit_proj {β : Type} (f : Dentry Name → β)
    (hf : ∀ e o p, f { e with top := o, parent := p } = f e) (m : Move Name) (top : ℕ)
    (neg : Option ℕ) (c : ℕ) : f ((d.stackCommit arm m top neg).dentry c) =
      f (update d.dentry d.fresh (newShell m.newParent m.newName (d.hostOf top)) c) := by
  rw [stackCommit_dentry]
  rcases eq_or_ne c (d.hostOf top) with rfl | hne
  · rw [update_self]
    exact hf _ _ _
  · rw [update_of_ne hne]

theorem Cache.exchangeCommit_proj {β : Type} (f : Dentry Name → β)
    (hf : ∀ e o p, f { e with top := o, parent := p } = f e) (x : Xchg Name) (topa topb c : ℕ) :
    f ((d.exchangeCommit arm x topa topb).dentry c) =
      f (((d.alloc (newShell x.pb x.nb (d.hostOf topa))).alloc
        (newShell x.pa x.na (d.hostOf topb))).dentry c) := by
  have htop : ∀ o (e : Dentry Name), f { e with top := o } = f e := fun o e => hf e o e.parent
  have hpar : ∀ p (e : Dentry Name), f { e with parent := p } = f e := fun p e => hf e e.top p
  unfold Cache.exchangeCommit
  cases x.cross
  · show f (((Cache.setTop _ _ _).setTop _ _).dentry c) = _
    rw [Cache.setTop, modify_proj f (htop _), Cache.setTop, modify_proj f (htop _)]
  · show f (((Cache.setParent _ _ _).setParent _ _).dentry c) = _
    rw [Cache.setParent, modify_proj f (hpar _), Cache.setParent,
      modify_proj f (hpar _)]
    show f (((Cache.setTop _ _ _).setTop _ _).dentry c) = _
    rw [Cache.setTop, modify_proj f (htop _), Cache.setTop, modify_proj f (htop _)]

theorem Keeps.stack (m : Move Name) (top : ℕ) (neg : Option ℕ) :
    Keeps d (d.stackCommit arm m top neg) := by
  refine ⟨fun h hlt => ?_, fun h hlt => ?_, fun h hlt hge => ?_⟩
  · rw [stackCommit_proj Txn.content (fun _ _ _ => rfl),
      update_of_ne (Nat.ne_of_lt hlt)]
  · rw [stackCommit_proj Dentry.shell (fun _ _ _ => rfl),
      update_of_ne (Nat.ne_of_lt hlt)]
  · rw [stackCommit_fresh] at hlt
    obtain rfl : h = d.fresh := by omega
    rw [stackCommit_proj Dentry.shell (fun _ _ _ => rfl), update_self]
    rfl

theorem Keeps.exchange (x : Xchg Name) (topa topb : ℕ) :
    Keeps d (d.exchangeCommit arm x topa topb) := by
  refine ⟨fun h hlt => ?_, fun h hlt => ?_, fun h hlt hge => ?_⟩
  · rw [exchangeCommit_proj Txn.content (fun _ _ _ => rfl)]
    simp [Cache.alloc, Nat.ne_of_lt hlt, Nat.ne_of_lt (Nat.lt_succ_of_lt hlt)]
  · rw [exchangeCommit_proj Dentry.shell (fun _ _ _ => rfl)]
    simp [Cache.alloc, Nat.ne_of_lt hlt, Nat.ne_of_lt (Nat.lt_succ_of_lt hlt)]
  · rw [exchangeCommit_fresh] at hlt
    rw [exchangeCommit_proj Dentry.shell (fun _ _ _ => rfl)]
    obtain rfl | rfl : h = d.fresh ∨ h = d.fresh + 1 := by omega
    · simp [Cache.alloc, Cache.newShell]
    · simp [Cache.alloc, Cache.newShell]

end Keeps

section Step

variable [DecidableEq Name] {pc : Pc Name} {ans : Answer} {g : ℕ → Content}

inductive Writes (arm : Arm) (d : Cache Name) (g : ℕ → Content) :
    Pc Name → Cache Name × Pc Name → (ℕ → Content) → Prop where
  | other {pc : Pc Name} {r : Cache Name × Pc Name} : Keeps d r.1 →
      (r.1 = d ∨ pc.folds = none ∨ r.2.folds ≠ none) → r.2.stored = none → Writes arm d g pc r g
  | add (e : Entry Name) (raw : StateWord) (head : Option ℕ) :
      Writes arm d g (.addCommit e raw head)
        (d.addCommit e.parent e.name e.id e.isdir e.positive, .ret none)
        (update g d.fresh ⟨!e.positive, e.id, e.parent⟩)
  | ident (host id : ℕ) (raw : StateWord) : Writes arm d g (.setId host false id raw)
      (d.modify host fun e => { e with id := id }, .setCommit host false id raw) g
  | flip (host : ℕ) (negative : Bool) (id : ℕ) (raw : StateWord) :
      Writes arm d g (.setCommit host negative id raw) (d.flip host negative, .ret none)
        (update g host ⟨negative, if negative then (g host).id else id, (g host).parent⟩)
  | swap (n : ℕ) (own : StateWord) : Writes arm d g (.fldSwap n own)
      (d.setIparent (d.hostOf n) (d.dentry n).iparent, .fldName n) g
  | fold (n : ℕ) (own : Option StateWord) : Writes arm d g (.fldCommit n own)
      (d.foldCommit arm n, .ret none)
      (update g (d.hostOf n) { g (d.hostOf n) with parent := (d.dentry n).iparent })

omit [DecidableEq Name] in
theorem foldCommit_mark (n : ℕ) : (d.foldCommit arm n).mark n = true := by
  simp [Cache.foldCommit, Cache.edit, Edits.Edit.out]

omit [DecidableEq Name] in
theorem Writes.quiet {r : Cache Name × Pc Name} (hd : r.1 = d) (hst : r.2.stored = none) :
    Writes arm d g pc r g :=
  .other (hd ▸ .refl d) (.inl hd) hst

theorem stepPc_writes : Writes arm d g pc (stepPc arm d pc ans) (pc.gives arm d ans g) := by
  by_cases hid : ∃ host id raw, pc = .setId host false id raw
  · obtain ⟨host, id, raw, rfl⟩ := hid
    exact .ident host id raw
  have hst : (stepPc arm d pc ans).2.stored = none := by
    cases hp : (stepPc arm d pc ans).2.stored with
    | none => rfl
    | some =>
      obtain ⟨raw, rfl⟩ := (stepPc_successor _ _ _ _).stored_eq hp
      exact absurd ⟨_, _, _, rfl⟩ hid
  -- a store that leaves the contents alone and is not the end of a TRANSFER
  have keeps : ∀ {d'}, pc.gives arm d ans g = g → pc.folds = none →
      (stepPc arm d pc ans).1 = d' → Keeps d d' →
      Writes arm d g pc (stepPc arm d pc ans) (pc.gives arm d ans g) := by
    intro d' hg hf hd hk
    rw [hg]
    exact .other (hd ▸ hk) (.inr (.inl hf)) hst
  cases pc with
  | addCommit e raw head =>
    by_cases hok : stepPc arm d (.addCommit e raw head) ans =
        (d.addCommit e.parent e.name e.id e.isdir e.positive, .ret none)
    · simp only [Pc.gives, hok]
      exact .add e raw head
    · have hfail : (stepPc arm d (.addCommit e raw head) ans).1 = d ∧
          (stepPc arm d (.addCommit e raw head) ans).2 ≠ .ret none := by
        simp only [stepPc] at hok ⊢
        split_ifs at hok ⊢
        · exact ⟨rfl, by rintro ⟨⟩⟩
        · exact ⟨rfl, by rintro ⟨⟩⟩
        · exact ⟨rfl, by rintro ⟨⟩⟩
        · exact absurd rfl hok
      simp only [Pc.gives, if_neg hfail.2]
      exact .quiet hfail.1 hst
  | setCommit host negative id raw =>
    by_cases hok : stepPc arm d (.setCommit host negative id raw) ans =
        (d.flip host negative, .ret none)
    · simp only [Pc.gives, hok]
      exact .flip host negative id raw
    · have hfail : (stepPc arm d (.setCommit host negative id raw) ans).1 = d ∧
          (stepPc arm d (.setCommit host negative id raw) ans).2 ≠ .ret none := by
        simp only [stepPc] at hok ⊢
        split_ifs at hok ⊢
        · exact ⟨rfl, by rintro ⟨⟩⟩
        · exact ⟨rfl, by rintro ⟨⟩⟩
        · exact absurd rfl hok
      simp only [Pc.gives, if_neg hfail.2]
      exact .quiet hfail.1 hst
  | fldCommit n own =>
    by_cases hok : stepPc arm d (.fldCommit n own) ans = (d.foldCommit arm n, .ret none) ∧
        d.mark n = false
    · have hm : d.mark n = false ∧ (d.foldCommit arm n).mark n = true :=
        ⟨hok.2, foldCommit_mark n⟩
      simp only [Pc.gives, hok.1, if_pos hm]
      exact .fold n own
    · have hfail : (stepPc arm d (.fldCommit n own) ans).1 = d := by
        simp only [stepPc] at hok ⊢
        split_ifs at hok ⊢ with h₁ h₂
        · rfl
        · rfl
        · simp only [Bool.or_eq_true, not_or, Bool.not_eq_true] at h₁
          exact absurd ⟨rfl, h₁.2⟩ hok
      have hm : ¬ (d.mark n = false ∧ d.mark n = true) := by simp
      simp only [Pc.gives, hfail, if_neg hm]
      exact .quiet hfail hst
  | fldSwap n own =>
    by_cases hr : d.raw (d.hostOf n) = own
    · simp only [stepPc, if_pos hr]
      exact .swap n own
    · exact .quiet (by simp only [stepPc, if_neg hr]) hst
  | fldName n =>
    refine .other (.setIname _ _) (.inr (.inr ?_)) hst
    exact Option.some_ne_none n
  | setId _ negative =>
    cases negative with
    | true => exact .quiet rfl hst
    | false => exact absurd ⟨_, _, _, rfl⟩ hid
  | unlCommit | evCommit =>
    simp only [stepPc] at keeps ⊢
    split_ifs at keeps ⊢
    · exact keeps rfl rfl rfl (.refl d)
    · exact keeps rfl rfl rfl (.refl d)
    · exact keeps rfl rfl rfl (.remove _ _ _)
  | stkCommit =>
    simp only [stepPc] at keeps ⊢
    split_ifs at keeps ⊢
    · exact keeps rfl rfl rfl (.refl d)
    · exact keeps rfl rfl rfl (.refl d)
    · exact keeps rfl rfl rfl (.stack _ _ _)
  | xchCommit =>
    simp only [stepPc] at keeps ⊢
    split_ifs at keeps ⊢
    · exact keeps rfl rfl rfl (.refl d)
    · exact keeps rfl rfl rfl (.refl d)
    · exact keeps rfl rfl rfl (.exchange _ _ _)
  | stkGray | xchGrayLo =>
    simp only [stepPc] at keeps ⊢
    split_ifs at keeps ⊢
    · exact keeps rfl rfl rfl (.refl d)
    · exact keeps rfl rfl rfl (.setMoving _ _)
  | xchGrayHi =>
    simp only [stepPc] at keeps ⊢
    split_ifs at keeps ⊢
    · exact keeps rfl rfl rfl (.refl d)
    · exact keeps rfl rfl rfl (.refl d)
    · exact keeps rfl rfl rfl (.setMoving _ _)
  | xchDropLo | stkClear | xchClearA | xchClearB => exact keeps rfl rfl rfl (.setMoving _ _)
  | _ => exact .quiet (stepPc_reads rfl) hst

/-- The entries hold what they were given. Outside the mark arm a TRANSFER stores the inline
parent before its commit, while the host is in no index. -/
structure HoldsGiven (arm : Arm) (d : Cache Name) (g : ℕ → Content) : Prop where
  neg : ∀ h < d.fresh, (d.dentry h).shell = false → (d.dentry h).neg = (g h).neg
  id : ∀ h < d.fresh, (d.dentry h).shell = false → (d.dentry h).neg = false →
    (d.dentry h).id = (g h).id
  parent : ∀ h < d.fresh, (d.dentry h).shell = false → arm = .mark ∨ d.linked h →
    (d.dentry h).iparent = (g h).parent

omit [DecidableEq Name] in
theorem HoldsGiven.change (hH : HoldsGiven arm d g) {g' : ℕ → Content} {x : ℕ}
    (hsame : ∀ h < d'.fresh, h ≠ x → (d'.dentry h).shell = false → h < d.fresh ∧
      (d.dentry h).shell = false ∧ content (d'.dentry h) = content (d.dentry h) ∧ g' h = g h ∧
      (d'.linked h → d.linked h))
    (hx : x < d'.fresh → (d'.dentry x).shell = false → (d'.dentry x).neg = (g' x).neg ∧
      ((d'.dentry x).neg = false → (d'.dentry x).id = (g' x).id) ∧
      (arm = .mark ∨ d'.linked x → (d'.dentry x).iparent = (g' x).parent)) :
    HoldsGiven arm d' g' := by
  refine ⟨fun h hlt hs => ?_, fun h hlt hs hn => ?_, fun h hlt hs hl => ?_⟩
  · rcases eq_or_ne h x with rfl | hne
    · exact (hx hlt hs).1
    · obtain ⟨hlt', hs', hc, hg, -⟩ := hsame h hlt hne hs
      have hn : (d'.dentry h).neg = (d.dentry h).neg := congrArg Content.neg hc
      rw [hn, hg]
      exact hH.neg h hlt' hs'
  · rcases eq_or_ne h x with rfl | hne
    · exact (hx hlt hs).2.1 hn
    · obtain ⟨hlt', hs', hc, hg, -⟩ := hsame h hlt hne hs
      have hn' : (d'.dentry h).neg = (d.dentry h).neg := congrArg Content.neg hc
      have hi : (d'.dentry h).id = (d.dentry h).id := congrArg Content.id hc
      rw [hi, hg]
      exact hH.id h hlt' hs' (hn'.symm.trans hn)
  · rcases eq_or_ne h x with rfl | hne
    · exact (hx hlt hs).2.2 hl
    · obtain ⟨hlt', hs', hc, hg, hl'⟩ := hsame h hlt hne hs
      have hp : (d'.dentry h).iparent = (d.dentry h).iparent := congrArg Content.parent hc
      rw [hp, hg]
      exact hH.parent h hlt' hs' (hl.imp_right hl')

variable {S : Set ℕ} {r : Cache Name × Pc Name} {g' : ℕ → Content}

omit [DecidableEq Name] in
theorem HoldsGiven.writes (hH : HoldsGiven arm d g) (hW : Writes arm d g pc r g')
    (hP : PcOk arm d S pc) (hhost : ∀ n, pc.folds = some n → ¬ d.linked (d.hostOf n))
    (hcame : ∀ h < d.fresh, r.1.linked h → d.linked h ∨
      r.2.folds = none ∧ ∃ n, pc.folds = some n ∧ h = d.hostOf n)
    (hneg : ∀ host id raw, pc = .setId host false id raw → (d.dentry host).neg = true)
    (hst : ∀ p, pc.stored = some p → (d.dentry p.1).id = p.2) : HoldsGiven arm r.1 g' := by
  have hlinked : pc.folds = none ∨ r.2.folds ≠ none → ∀ h < d.fresh, r.1.linked h →
      d.linked h := by
    intro hf h hlt hl
    refine (hcame h hlt hl).resolve_right fun ⟨hnone, n, hn, _⟩ => ?_
    rcases hf with hf | hf
    · rw [hf] at hn
      cases hn
    · exact hf hnone
  -- away from one dentry a store changes nothing
  have away : ∀ {x : ℕ}, r.1.fresh = d.fresh → (∀ h ≠ x, r.1.dentry h = d.dentry h) →
      pc.folds = none ∨ r.2.folds ≠ none → ∀ h < r.1.fresh, h ≠ x →
      (r.1.dentry h).shell = false → h < d.fresh ∧ (d.dentry h).shell = false ∧
        content (r.1.dentry h) = content (d.dentry h) ∧ (r.1.linked h → d.linked h) := by
    intro x hfresh hd hf h hlt hne hs
    rw [hfresh] at hlt
    rw [hd h hne] at hs ⊢
    exact ⟨hlt, hs, rfl, hlinked hf h hlt⟩
  cases hW with
  | other hK hf =>
    refine hH.change (x := r.1.fresh) (fun h hlt _ hs => ?_) fun hx => absurd hx (Nat.lt_irrefl _)
    have hlt' : h < d.fresh := by
      by_contra hge
      rw [hK.new h hlt (Nat.not_lt.mp hge)] at hs
      cases hs
    refine ⟨hlt', (hK.shell h hlt').symm.trans hs, hK.content h hlt', rfl, fun hl => ?_⟩
    rcases hf with hf | hf
    · rwa [hf] at hl
    · exact hlinked hf h hlt' hl
  | add e =>
    have hnew : (d.addCommit e.parent e.name e.id e.isdir e.positive).dentry d.fresh =
        ⟨e.parent, false, !e.positive, e.name, none, none, e.isdir, e.parent, false, e.id⟩ :=
      d.addCommit_new _ _ _ _ _
    refine hH.change (x := d.fresh) (fun h hlt hne hs => ?_) fun _ _ => ?_
    · have hlt' : h < d.fresh := by
        rw [addCommit_fresh] at hlt
        omega
      rw [addCommit_old hlt'] at hs ⊢
      exact ⟨hlt', hs, rfl, update_of_ne hne _ _, hlinked (.inl rfl) h hlt'⟩
    · rw [hnew, update_self]
      exact ⟨rfl, fun _ => rfl, fun _ => rfl⟩
  | ident host id raw =>
    have hd : ∀ h ≠ host, (d.modify host fun e => { e with id := id }).dentry h = d.dentry h :=
      fun h hne => modify_of_ne _ _ _ _ hne
    refine hH.change (x := host) (fun h hlt hne hs => ?_) fun hlt hs => ?_
    · obtain ⟨hlt', hs', hc, hl⟩ := away rfl hd (.inl rfl) h hlt hne hs
      exact ⟨hlt', hs', hc, rfl, hl⟩
    · have hn := hneg host id raw rfl
      rw [modify_self] at hs ⊢
      refine ⟨hH.neg host hlt hs, fun hp => ?_, fun hl => ?_⟩
      · rw [hn] at hp
        cases hp
      · exact hH.parent host hlt hs (hl.imp_right (hlinked (.inl rfl) host hlt))
  | flip host negative id =>
    have hd : ∀ h ≠ host, (d.flip host negative).dentry h = d.dentry h :=
      fun h hne => modify_of_ne _ _ _ _ hne
    refine hH.change (x := host) (fun h hlt hne hs => ?_) fun hlt hs => ?_
    · obtain ⟨hlt', hs', hc, hl⟩ := away rfl hd (.inl rfl) h hlt hne hs
      exact ⟨hlt', hs', hc, update_of_ne hne _ _, hl⟩
    · have he : (d.flip host negative).dentry host = { d.dentry host with neg := negative } :=
        modify_self _ _ _
      rw [he] at hs ⊢
      rw [update_self]
      refine ⟨rfl, fun hp => ?_, fun hl => ?_⟩
      · obtain rfl : negative = false := hp
        exact hst (host, id) rfl
      · exact hH.parent host hlt hs (hl.imp_right (hlinked (.inl rfl) host hlt))
  | swap n =>
    have hf : (Pc.fldName n : Pc Name).folds ≠ none := Option.some_ne_none n
    have hd : ∀ h ≠ d.hostOf n, (d.setIparent (d.hostOf n) (d.dentry n).iparent).dentry h =
        d.dentry h := fun h hne => modify_of_ne _ _ _ _ hne
    refine hH.change (x := d.hostOf n) (fun h hlt hne hs => ?_) fun hlt hs => ?_
    · obtain ⟨hlt', hs', hc, hl⟩ := away rfl hd (.inr hf) h hlt hne hs
      exact ⟨hlt', hs', hc, rfl, hl⟩
    · have he : (d.setIparent (d.hostOf n) (d.dentry n).iparent).dentry (d.hostOf n) =
          { d.dentry (d.hostOf n) with iparent := (d.dentry n).iparent } :=
        modify_self _ _ _
      rw [he] at hs ⊢
      refine ⟨hH.neg _ hlt hs, hH.id _ hlt hs, fun hl => ?_⟩
      rcases hl with hl | hl
      · exact absurd hl hP.2.2
      · exact absurd (hlinked (.inr hf) _ hlt hl) (hhost n rfl)
  | fold n =>
    refine hH.change (x := d.hostOf n) (fun h hlt hne hs => ?_) fun hlt hs => ?_
    · rw [foldCommit_fresh] at hlt
      rw [foldCommit_of_ne hne] at hs ⊢
      refine ⟨hlt, hs, rfl, update_of_ne hne _ _, fun hl => ?_⟩
      refine (hcame h hlt hl).resolve_right fun ⟨_, k, hk, hh⟩ => hne ?_
      obtain rfl := Option.some.inj hk
      exact hh
    · rw [foldCommit_fresh] at hlt
      rw [foldCommit_host] at hs ⊢
      rw [update_self]
      refine ⟨hH.neg _ hlt hs, hH.id _ hlt hs, fun _ => ?_⟩
      show (if arm = .mark then _ else _) = _
      split_ifs with ha
      · rfl
      · exact hP.parent ha

omit [DecidableEq Name] in
theorem Writes.id_eq (hW : Writes arm d g pc r g') {h : ℕ} (hlt : h < d.fresh)
    (hid : ∀ id raw, pc ≠ .setId h false id raw) : (r.1.dentry h).id = (d.dentry h).id := by
  cases hW with
  | other hK => exact congrArg Content.id (hK.content h hlt)
  | add => exact congrArg Dentry.id (addCommit_old hlt)
  | ident host id raw =>
    have hne : h ≠ host := fun he => hid id raw (he ▸ rfl)
    have hd : (d.modify host fun e => { e with id := id }).dentry h = d.dentry h :=
      modify_of_ne _ _ _ _ hne
    exact congrArg Dentry.id hd
  | flip host negative =>
    show ((d.modify host fun e => { e with neg := negative }).dentry h).id = _
    apply modify_proj Dentry.id
    intro e
    rfl
  | swap n =>
    show ((d.modify _ fun e => { e with iparent := (d.dentry n).iparent }).dentry h).id = _
    apply modify_proj Dentry.id
    intro e
    rfl
  | fold n =>
    rcases eq_or_ne h (d.hostOf n) with rfl | hne
    · rw [foldCommit_host]
    · rw [foldCommit_of_ne hne]

end Step

variable [DecidableEq Name] {l l' : Log Name} {S : ℕ → Set ℕ}

structure LogOk (arm : Arm) (l : Log Name) (S : ℕ → Set ℕ) : Prop where
  inv : Inv arm l.s S
  holds : HoldsGiven arm l.s.d l.given
  stored : ∀ t p, (l.s.pc t).stored = some p → p.1 < l.s.d.fresh ∧ (l.s.d.dentry p.1).id = p.2

omit [DecidableEq Name] in
theorem LogOk.init (arm : Arm) (bucketOf : ℕ → Name → ℕ) (rootname : Name) (S : ℕ → Set ℕ) :
    LogOk arm (Log.init bucketOf rootname) S :=
  ⟨.init arm bucketOf rootname S, ⟨fun _ _ _ => rfl, fun _ _ _ _ => rfl, fun _ _ _ _ => rfl⟩,
    nofun⟩

omit [DecidableEq Name] in
theorem Pc.busy_of_stored {pc : Pc Name} {p : ℕ × ℕ} (hp : pc.stored = some p) :
    pc.busy = true := by
  cases pc <;> first | rfl | cases hp

omit [DecidableEq Name] in
theorem Starts.stored {c : Call Name} {pc : Pc Name} (h : Starts arm c pc) : pc.stored = none := by
  cases arm <;> cases h <;> rfl

theorem LogOk.act {a : Act Name} (hL : LogOk arm l S) (hok : l.s.IdAlone a)
    (ha : l.act arm a = some l') : ∃ S', LogOk arm l' S' := by
  obtain ⟨s', hs, rfl⟩ := Option.map_eq_some_iff.mp ha
  have hV' := hL.inv.act hs
  rcases Sys.act_cases hs with ⟨t, c, rfl, -, -, rfl⟩ | ⟨t, ans, rfl, hb, rfl⟩
  · refine ⟨_, hV', hL.holds, fun u p hp => ?_⟩
    rcases eq_or_ne u t with rfl | hne
    · simp [(callStart_starts arm _).stored] at hp
    · exact hL.stored u p (by simpa [hne] using hp)
  · have hW : Writes arm l.s.d l.given (l.s.pc t) (stepPc arm l.s.d (l.s.pc t) ans)
        ((l.s.pc t).gives arm l.s.d ans l.given) := stepPc_writes
    obtain ⟨_, _, hE, -, -, hback⟩ := hL.inv.effect (C := fun _ => True) ans hb fun _ _ => trivial
    have hH := hE.indexStep hL.inv.index
    refine ⟨_, hV', ?_, fun u p hp => ?_⟩
    · refine hL.holds.writes hW (hL.inv.pcOk t) (fun n hn => hL.inv.host_not_linked hn)
        (fun h hlt hl => ?_) (fun host id raw hpc => (hok host (by rw [hpc]; rfl)).1)
        fun p hp => (hL.stored t p hp).2
      rcases hH.came h hl with hl | hge | hb
      · exact .inl hl
      · exact absurd hlt (Nat.not_lt.mpr hge)
      · obtain ⟨hnone, n, hn, -, he⟩ := hback h hb
        exact .inr ⟨hnone, n, hn, he⟩
    · rcases eq_or_ne u t with rfl | hne
      · have hp' : (stepPc arm l.s.d (l.s.pc u) ans).2.stored = some p := by simpa using hp
        obtain ⟨raw, hpc⟩ := (stepPc_successor _ _ _ _).stored_eq hp'
        have hP := hL.inv.pcOk u
        rw [hpc] at hP
        refine ⟨Nat.lt_of_lt_of_le hP.1 hH.fresh, ?_⟩
        simp [hpc, stepPc]
      · have hp' : (l.s.pc u).stored = some p := by simpa [hne] using hp
        obtain ⟨hlt, hid⟩ := hL.stored u p hp'
        refine ⟨Nat.lt_of_lt_of_le hlt hH.fresh, ?_⟩
        rw [← hid]
        refine hW.id_eq hlt fun id raw hpc => ?_
        refine (hok p.1 (by rw [hpc]; rfl)).2 u (hL.inv.reader u (Pc.busy_of_stored hp')) hne ?_
        rw [hp']
        rfl

/-- In every run whose calls store their ids apart, an entry has the state of the last flip or add
that succeeded, where it is positive also the id, and the inline parent of the last TRANSFER that
committed; without a transacted `d_iparent` the latter where the host itself is in the index. -/
theorem reach_last_given {bucketOf : ℕ → Name → ℕ} {rootname : Name}
    (hr : Reach (Log.act arm) (fun l => l.s.IdAlone) (Log.init bucketOf rootname) l) {h : ℕ}
    (hlt : h < l.s.d.fresh) (hs : (l.s.d.dentry h).shell = false) :
    (l.s.d.dentry h).neg = (l.given h).neg ∧
      ((l.s.d.dentry h).neg = false → (l.s.d.dentry h).id = (l.given h).id) ∧
      (arm = .mark ∨ l.s.d.linked h → (l.s.d.dentry h).iparent = (l.given h).parent) := by
  obtain ⟨S, hL⟩ := hr.invariant (P := fun l => ∃ S, LogOk arm l S)
    ⟨fun _ => ∅, .init arm bucketOf rootname _⟩ fun _ _ _ ⟨_, hL⟩ hok ha => hL.act hok ha
  exact ⟨hL.holds.neg h hlt hs, hL.holds.id h hlt hs, hL.holds.parent h hlt hs⟩

/-- Thread 0 instantiates the negative `/1` with id 5, renames it and deletes it; thread 1 runs the
fold and instantiates the entry again with id 7. -/
def instantiateTwice : List (Act ℕ) :=
  Act.op 0 (.addNegative [1]) 6 ++ Act.op 0 (.instantiate [1] 5) 5 ++
    Act.op 0 (.rename [1] [2]) 13 ++ .call 1 (.fold 2) :: Act.steps 1 5 ++
    Act.op 0 (.delete [2]) 5 ++ Act.op 1 (.instantiate [2] 7) 5

theorem reach_last_given_twice : ∃ l : Log ℕ,
    Reach (Log.act .mark) (fun l => l.s.IdAlone) (Log.init (fun _ _ => 0) 0) l ∧
      1 < l.s.d.fresh ∧ (l.s.d.dentry 1).shell = false ∧ (l.s.d.dentry 1).neg = false ∧
      (l.s.d.dentry 1).id = 7 ∧ (l.s.d.dentry 1).id = (l.given 1).id := by
  have he : (exec (guarded (Log.act .mark) fun l => l.s.IdAlone) (Log.init (fun _ _ => 0) 0)
      instantiateTwice).map (fun l => (decide (1 < l.s.d.fresh), (l.s.d.dentry 1).shell,
        (l.s.d.dentry 1).neg, (l.s.d.dentry 1).id)) = some (true, false, false, 7) := by
    decide +kernel
  obtain ⟨l, hr, he⟩ := reach_exec_map he
  simp only [Prod.mk.injEq, decide_eq_true_eq] at he
  obtain ⟨hlt, hs, hn, hid⟩ := he
  exact ⟨l, hr.of_guarded, hlt, hs, hn, hid, (reach_last_given hr.of_guarded hlt hs).2.1 hn⟩

/-- Threads 0 and 1 instantiate the negative `/1` with ids 5 and 7. Both have stored their id when
thread 0 flips the state. -/
def instantiatesMeet : List (Act ℕ) :=
  Act.op 0 (.addNegative [1]) 6 ++ Act.op 0 (.instantiate [1] 5) 4 ++
    Act.op 1 (.instantiate [1] 7) 4 ++ Act.steps 0 1 ++ Act.steps 1 2

/-- Thread 1 folds the shell that names `/2/4` and has stored its parent into the host when
thread 0 renames the entry back into `/1`. -/
def foldLoses : List (Act ℕ) :=
  Act.op 0 (.add [1] 0) 6 ++ Act.op 0 (.add [2] 0) 6 ++ Act.op 0 (.addFile [1, 3] 0) 7 ++
    Act.op 0 (.rename [1, 3] [2, 4]) 21 ++ .call 1 (.fold 4) :: Act.steps 1 3 ++
    Act.op 0 (.rename [2, 4] [1, 5]) 21 ++ Act.steps 1 3

/-- The call that returned 0 gave id 5 and the one that returned EEXIST left id 7. In the global
arm the inline parent that a lost TRANSFER stored stays, in a host that no index holds. -/
theorem instantiatesMeet_id_lost :
    (∃ l : Log ℕ, Reach (Log.act .mark) (fun _ _ => True) (Log.init (fun _ _ => 0) 0) l ∧
      l.s.pc 0 = .done (.code none) ∧ l.s.pc 1 = .done (.code (some .EEXIST)) ∧
      (l.s.d.dentry 1).neg = false ∧ (l.s.d.dentry 1).id = 7 ∧ (l.given 1).id = 5) ∧
    ∃ l : Log ℕ, Reach (Log.act .global) (fun _ _ => True) (Log.init (fun _ _ => 0) 0) l ∧
      l.s.pc 0 = .done (.code none) ∧ l.s.pc 1 = .done (.code none) ∧
      (l.s.d.dentry 3).iparent = 2 ∧ (l.given 3).parent = 1 := by
  have h₁ : (exec (Log.act .mark) (Log.init (fun _ _ => 0) 0) instantiatesMeet).map (fun l =>
      (l.s.pc 0, l.s.pc 1, (l.s.d.dentry 1).neg, (l.s.d.dentry 1).id, (l.given 1).id)) =
      some (.done (.code none), .done (.code (some .EEXIST)), false, 7, 5) := by
    decide +kernel
  have h₂ : (exec (Log.act .global) (Log.init (fun _ _ => 0) 0) foldLoses).map (fun l =>
      (l.s.pc 0, l.s.pc 1, (l.s.d.dentry 3).iparent, (l.given 3).parent)) =
      some (.done (.code none), .done (.code none), 2, 1) := by
    decide +kernel
  obtain ⟨l, hr, he⟩ := reach_exec_map h₁
  obtain ⟨l', hr', he'⟩ := reach_exec_map h₂
  simp only [Prod.mk.injEq] at he he'
  exact ⟨⟨l, hr, he⟩, l', hr', he'⟩

end TrieBenchmark.Txn
