import TrieBenchmark.Conserve
import TrieBenchmark.Seqlock.Order
import TrieBenchmark.Seqlock.Solo

/-!
Calls of the seqlock engine one at a time, with kills between them, beside the record of the
objects they make and remove.
-/

namespace TrieBenchmark.Seqlock

open Option Function Namei Serial Run

variable {Name : Type}

/-- The call as the record sees it: a kill removes its dentry as an eviction does. -/
def Call.made : Call Name → TrieBenchmark.Call Name
  | .op o => .op o
  | .kill a => .evict a

def Pc.returnsZero : Pc Name → Bool
  | .drop _ (.ret (.code none)) => true
  | _ => false

def Pc.closing : Pc Name → Bool
  | .drop _ (.ret _) => true
  | _ => false

variable [DecidableEq Name] {d d' : Cache Name} {s s' : Sys Name} {t : ℕ} {pc : Pc Name} {oom : Bool}

def engine : Engine (Sys Name) (Act Name) Name where
  act := Sys.act
  call
    | .call _ c => some c.made
    | .step _ _ => none
  names s := s.d.names
  returned s a := (s.pc a.thread).returnsZero

section Turns

variable {fresh : ℕ} {N N' : PathMap Name} {o : Op Name}

omit [DecidableEq Name] in
theorem served_turn (h : served fresh N o = (.code none, N')) :
    Turn False fresh N (.op o) true N' := by
  cases o with
  | addTyped path id isdir positive =>
    simp only [served, PathMap.addJudged] at h
    split at h
    · cases h
    rename_i hne
    split at h
    · cases h
    split_ifs at h with h₁ h₂ h₃ <;> cases h
    exact .add hne (by simpa using h₃)
  | instantiate path id =>
    simp only [served, serve, PathMap.instantiate] at h
    split at h
    · cases h
    rename_i hne
    split at h
    · cases h
    rename_i o ho
    split_ifs at h <;> cases h
    exact .instantiate hne ho
  | delete path =>
    simp only [served, PathMap.deleteJudged] at h
    split at h
    · cases h
    split at h
    · cases h
    rename_i o ho
    split_ifs at h <;> cases h
    exact .delete ho
  | unlink path =>
    simp only [served, serve, PathMap.unlink] at h
    split at h
    · cases h
    split at h
    · cases h
    rename_i o ho
    split_ifs at h with hleaf <;> cases h
    exact .unlink ho hleaf
  | rename src dst =>
    simp only [served, PathMap.renameOver] at h
    split at h
    · cases h
    rename_i hne
    rw [not_or] at hne
    split at h
    · rename_i o dir hs hd
      split_ifs at h with h₁ h₂ h₃ <;> cases h
      refine .rename hne.1 (by rw [hs]; rfl) (not_prefix_of_dropLast hne.2 (fun he => ?_) h₂)
        (fun o ho => ?_) False.elim
      · exact h₃ ⟨o, he ▸ hs, .inl he⟩
      · by_contra hneg
        exact h₃ ⟨o, ho, .inr (by simpa using hneg)⟩
    · cases h
  | exchange a b =>
    simp only [served, serve, PathMap.exchange, Bool.false_eq_true, if_false] at h
    split at h
    · cases h
    rename_i hne
    rw [not_or] at hne
    split at h
    · split_ifs at h with h₁ h₂
      · cases h
        exact .still fun _ _ _ _ => rfl
      · cases h
      · cases h
        rw [not_or] at h₂
        exact .exchange hne.1 hne.2 (not_prefix_of_dropLast hne.2 (Ne.symm h₁) h₂.1)
          (not_prefix_of_dropLast hne.1 h₁ h₂.2)
    · cases h
  | lookup => cases h

theorem IndexOk.turn_kill (hI : IndexOk d) {a : ℕ} (hl : d.Live a)
    (hleaf : d.hasChildren a = false) :
    Turn False d.fresh d.names (.evict a) true (d.unhash a).names := by
  by_cases hdir : ∃ dir, d.resolve dir = some (d.parent a)
  · obtain ⟨dir, hdir⟩ := hdir
    have hat : d.resolve (dir ++ [(d.dentry a).name]) = some a :=
      (resolve_dir hdir _).trans (hI.childLookup_self hl)
    rw [hI.names_unhash hl hdir]
    refine .evict (o := d.obj a) (names_of_resolve hat) ?_
    rw [hI.hasChild_iff hat, hleaf]
    simp
  · have hsame : (d.unhash a).names = d.names := by
      apply PathMap.ext
      funext p
      refine (hI.sameObjs fun x _ => ?_).find (resolve_congr fun q n v _ hv => ?_)
      · rw [Cache.obj, Cache.unhash_dentry, Cache.obj]
      · rw [hI.unhash_childLookup hl, if_neg]
        rintro ⟨rfl, -⟩
        exact hdir ⟨q, hv⟩
    rw [hsame]
    refine .lost fun p o ho he => ?_
    obtain ⟨x, hx, rfl⟩ := names_eq_some.mp ho
    obtain rfl : x = a := he
    rcases List.eq_nil_or_concat' p with rfl | ⟨dir, n, rfl⟩
    · exact hl.2.1 (some.inj hx).symm
    · exact hdir ⟨dir, (hI.resolve_parent hx).2.1⟩

end Turns

def Due (d : Cache Name) (pc : Pc Name) (c : TrieBenchmark.Call Name) : Prop :=
  ∃ d' r, Leads d pc d' r ∧ IndexOk d' ∧
    (r = .code none → Turn False d.fresh d.names c true d'.names)

theorem IndexOk.due_op (hI : IndexOk d) (o : Op Name) : Due d (opStart o) (.op o) := by
  obtain ⟨d', hS⟩ := hI.serves o
  refine ⟨d', _, hS.leads, hS.index, fun h0 => ?_⟩
  apply served_turn
  rw [← h0, hS.names]

theorem IndexOk.due_kill (hI : IndexOk d) {a : ℕ} (ha : a < d.fresh) :
    Due d (Call.start (.kill a : Call Name)) (.evict a) := by
  have hfail : ∀ {r}, r = Ret.code (some .EAGAIN) → StageLeads d (.killRead a) d r →
      Due d (Call.start (.kill a : Call Name)) (.evict a) := by
    intro r hr h
    refine ⟨d, r, h [] [], hI, fun h0 => ?_⟩
    rw [hr] at h0
    cases h0
  by_cases hself : d.parent a = a
  · exact hfail rfl (.out (by simp [stageStep, hself, Next.fail]))
  have hread : stageStep d (.killRead a) false = (d, .go [.dir (d.parent a),
      .bucket (d.bucketOf (d.parent a) (d.dentry a).name)] (.killTest a (d.parent a))) := by
    simp [stageStep, hself]
  by_cases hok : (d.dentry a).unhashed = false ∧ d.hasChildren a = false
  · have htest : stageStep d (.killTest a (d.parent a)) false =
        (d, .go [] (.killDel a (d.parent a))) := by
      simp [stageStep, hok]
    have hl : d.Live a := by
      refine ⟨ha, ?_, hok.1⟩
      rintro rfl
      exact hself hI.rootSelf.2.1
    have hleads : StageLeads d (.killRead a) (d.unhash a) (.code none) :=
      .go hread (.go htest (.out rfl))
    exact ⟨_, _, hleads [] [], hI.unhash hl, fun _ => hI.turn_kill hl hok.2⟩
  · refine hfail rfl (.go hread (.out ?_))
    have hno : (!(d.dentry a).unhashed && !d.hasChildren a) = false := by
      simpa using hok
    simp only [stageStep, decide_true, Bool.true_and, hno]
    rfl

section Steps

variable {c : TrieBenchmark.Call Name} {stage : Stage Name} {held : List Lock}

omit [DecidableEq Name] in
theorem Pc.Outside.returnsZero_eq {pc : Pc Name} (h : pc.Outside) : pc.returnsZero = false := by
  cases pc with
  | drop => exact h.elim
  | _ => rfl

theorem stageStep_oom (d : Cache Name) (stage : Stage Name) (oom : Bool) :
    stageStep d stage oom = stageStep d stage false ∨
      stageStep d stage oom = (d, .fail .ENOMEM) := by
  cases stage with
  | addLink =>
    cases oom with
    | false => exact .inl rfl
    | true => exact .inr rfl
  | _ => exact .inl rfl

theorem stageStep_still (d : Cache Name) (stage : Stage Name) :
    2 ≤ stage.floor ∧ (stageStep d stage false).2 = .ok ∨
      (stageStep d stage false).1 = d ∧ (stageStep d stage false).2 ≠ .ok := by
  cases stage with
  | addLink | instSet | delSet | unlDel | renMove | xchSwap | killDel =>
    exact .inl ⟨by simp [Stage.floor], rfl⟩
  | instFind | delFind | renTarget =>
    right
    simp only [stageStep]
    split
    · exact ⟨rfl, by rintro ⟨⟩⟩
    · split <;> exact ⟨rfl, by rintro ⟨⟩⟩
  | renState | renLoop | xchLoopA | xchLoopB =>
    right
    simp only [stageStep]
    split_ifs <;> exact ⟨rfl, by rintro ⟨⟩⟩
  | xchRead =>
    refine .inr ⟨rfl, ?_⟩
    simp only [stageStep]
    split <;> rintro ⟨⟩
  | unlRead | renRead | renBuckets | xchNames => exact .inr ⟨rfl, by rintro ⟨⟩⟩
  | _ =>
    right
    simp only [stageStep]
    split <;> exact ⟨rfl, by rintro ⟨⟩⟩

omit [DecidableEq Name] in
theorem Next.returnsZero_pc {next : Next Name} (h : next ≠ .ok) :
    (next.pc held).returnsZero = false := by
  cases next with
  | go => rfl
  | out e =>
    simp only [Next.pc]
    split_ifs
    · exact e.pc_outside.returnsZero_eq
    · cases e with
      | again => rfl
      | ret r =>
        cases r with
        | lookup => rfl
        | code e =>
          cases e with
          | none => exact absurd rfl h
          | some => rfl

theorem Due.tail {pc₁ : Pc Name} (h : Due d pc c) (hs : soloStep false (d, pc) = (d, pc₁)) :
    Due d pc₁ c := by
  obtain ⟨d', r, hl, hrest⟩ := h
  exact ⟨d', r, hl.tail hs, hrest⟩

theorem Leads.closed {d₁ : Cache Name} {r r' : Ret}
    (h : Leads d ((Next.out (.ret r)).pc held) d₁ r') : d₁ = d ∧ r' = r := by
  have hdone : Leads d (.done r) d₁ r' := by
    unfold Next.pc at h
    split_ifs at h
    · exact h
    · exact h.tail rfl
  obtain ⟨k, hk⟩ := hdone
  have hfix : (soloStep false)^[k] (d, .done r) = (d, .done r) := by
    induction k with
    | zero => rfl
    | succ _ ih =>
      rw [iterate_succ_apply]
      exact ih (by rwa [iterate_succ_apply] at hk)
  rw [hfix] at hk
  obtain ⟨hd, hr⟩ := Prod.mk.inj hk
  exact ⟨hd.symm, (Pc.done.inj hr).symm⟩

/-- What holds while a call runs alone: the index is whole, the locks are in order, and the call
is on its way to what it is due. -/
structure OnWay (d : Cache Name) (pc : Pc Name) (c : TrieBenchmark.Call Name) : Prop where
  index : IndexOk d
  ordered : pc.Ordered
  due : pc.busy = true → pc.closing = true ∨ Due d pc c

theorem OnWay.still {pc₁ : Pc Name} (hW : OnWay d pc c) (hb : pc.busy = true)
    (hc : pc.closing = false) (hs : soloStep false (d, pc) = (d, pc₁)) (hO : pc₁.Ordered)
    (h0 : pc₁.returnsZero = false) :
    OnWay d pc₁ c ∧ Turn False d.fresh d.names c pc₁.returnsZero d.names := by
  refine ⟨⟨hW.index, hO, fun _ => .inr ?_⟩, ?_⟩
  · refine Due.tail ((hW.due hb).resolve_left ?_) hs
    rw [hc]
    exact Bool.false_ne_true
  · rw [h0]
    exact .still nofun

theorem OnWay.atStage (hW : OnWay d (.sect [] held stage) c) (oom : Bool) :
    OnWay (stageStep d stage oom).1 ((stageStep d stage oom).2.pc held) c ∧
      Turn False d.fresh d.names c ((stageStep d stage oom).2.pc held).returnsZero
        (stageStep d stage oom).1.names := by
  have hfit : Fits held stage := hW.ordered
  have hO : ((stageStep d stage oom).2.pc held).Ordered := stageStep_ordered hfit
  obtain ⟨d', r, hl, hI', hturn⟩ := (hW.due rfl).resolve_left Bool.false_ne_true
  rcases stageStep_oom d stage oom with he | he
  · have hs : soloStep false (d, .sect [] held stage) =
        ((stageStep d stage oom).1, (stageStep d stage oom).2.pc held) := by
      rw [he]
      rfl
    rw [he] at hO hs ⊢
    rcases stageStep_still d stage with ⟨hfloor, hok⟩ | ⟨hd, hne⟩
    · -- the edit: the call is at its end
      have hend := hl.tail hs
      rw [hok] at hend hO ⊢
      obtain ⟨rfl, rfl⟩ := hend.closed
      have hlocked : held ≠ [] := hfit.locked hfloor
      have hpc : (Next.ok : Next Name).pc held = .drop held (.ret (.code none)) := if_neg hlocked
      rw [hpc] at hO ⊢
      exact ⟨⟨hI', hO, fun _ => .inl rfl⟩, hturn rfl⟩
    · have hs' : soloStep false (d, .sect [] held stage) =
          (d, (stageStep d stage false).2.pc held) := by
        rw [hs, hd]
      rw [hd]
      exact hW.still rfl rfl hs' hO (Next.returnsZero_pc hne)
  · rw [he] at hO ⊢
    refine ⟨⟨hW.index, hO, fun hb => .inl ?_⟩, ?_⟩
    · simp only [Next.fail, Next.pc] at hb ⊢
      split_ifs at hb ⊢ with hh
      · cases hb
      · rfl
    · rw [Next.returnsZero_pc (by simp [Next.fail, Next.ok])]
      exact .quiet

theorem OnWay.step (hW : OnWay d pc c) (hb : pc.busy = true) (oom : Bool) :
    OnWay (soloStep oom (d, pc)).1 (soloStep oom (d, pc)).2 c ∧
      Turn False d.fresh d.names c (soloStep oom (d, pc)).2.returnsZero
        (soloStep oom (d, pc)).1.names := by
  cases pc with
  | idle | done => cases hb
  | walk =>
    exact hW.still hb rfl rfl (walkStep_outside ..).ordered (walkStep_outside ..).returnsZero_eq
  | lkHop =>
    exact hW.still hb rfl rfl (lkStep_outside ..).ordered (lkStep_outside ..).returnsZero_eq
  | sect todo =>
    cases todo with
    | nil => exact hW.atStage oom
    | cons => exact hW.still hb rfl rfl hW.ordered.acquire rfl
  | drop _ e =>
    cases e with
    | again => exact hW.still hb rfl rfl trivial rfl
    | ret => exact ⟨⟨hW.index, trivial, nofun⟩, .still nofun⟩

end Steps

theorem Sys.act_solo (h : s.act (.step t oom) = some s') : (s.pc t).busy = true ∧
    s'.d = (soloStep oom (s.d, s.pc t)).1 ∧
    s'.pc = update s.pc t (soloStep oom (s.d, s.pc t)).2 := by
  simp only [Sys.act] at h
  split at h
  · cases h
  · cases h
  all_goals rename_i hpc
  · rw [hpc]
    obtain rfl := some.inj h
    exact ⟨rfl, rfl, rfl⟩
  · rw [hpc]
    obtain rfl := some.inj h
    exact ⟨rfl, rfl, rfl⟩
  · split_ifs at h
    rw [hpc]
    obtain rfl := some.inj h
    exact ⟨rfl, rfl, rfl⟩
  · rw [hpc]
    obtain rfl := some.inj h
    exact ⟨rfl, rfl, rfl⟩
  · rw [hpc]
    obtain rfl := some.inj h
    exact ⟨rfl, rfl, rfl⟩

theorem soloStep_ordered (h : pc.Ordered) : (soloStep oom (d, pc)).2.Ordered := by
  cases pc with
  | walk => exact (walkStep_outside ..).ordered
  | lkHop => exact (lkStep_outside ..).ordered
  | sect todo =>
    cases todo with
    | nil => exact stageStep_ordered h
    | cons => exact Fits.acquire h
  | drop _ e => exact e.pc_outside.ordered
  | _ => trivial

omit [DecidableEq Name] in
def Sys.Mine (s : Sys Name) (t : ℕ) : Prop :=
  ∀ l, s.locks l = if l ∈ (s.pc t).held then some t else none

theorem Sys.Mine.step (hM : s.Mine t) (hO : (s.pc t).Ordered) (hb : (s.pc t).busy = true)
    (oom : Bool) : ∃ s', s.act (.step t oom) = some s' ∧ s'.Mine t := by
  cases hpc : s.pc t with
  | idle | done =>
    rw [hpc] at hb
    cases hb
  | walk cur rest k =>
    refine ⟨_, by simp only [Sys.act, hpc]; rfl, fun l => ?_⟩
    simp only [update_self, (walkStep_outside (d := s.d) cur k rest).held_eq]
    rw [hM l, hpc]
    rfl
  | lkHop cur rest hosts res =>
    refine ⟨_, by simp only [Sys.act, hpc]; rfl, fun l => ?_⟩
    simp only [update_self, (lkStep_outside (d := s.d) cur hosts res rest).held_eq]
    rw [hM l, hpc]
    rfl
  | sect todo held =>
    cases todo with
    | nil =>
      refine ⟨_, by simp only [Sys.act, hpc]; rfl, fun l => ?_⟩
      simp only [update_self, Next.held_pc]
      rw [hM l, hpc]
      rfl
    | cons l todo =>
      rw [hpc] at hO
      have hnew : l ∉ held := fun hl =>
        (List.nodup_cons.mp hO.nodup).1 (List.mem_append_right todo hl)
      have hfree : s.locks l = none := by
        rw [hM l, hpc]
        exact if_neg hnew
      refine ⟨_, by simp only [Sys.act, hpc, hfree, if_true]; rfl, fun l' => ?_⟩
      simp only [update_self, Pc.held]
      rcases eq_or_ne l' l with rfl | hne
      · simp
      · have hiff : l' ∈ held ↔ l' ∈ l :: held := by simp [hne]
        rw [update_of_ne hne, hM l', hpc]
        exact if_congr hiff rfl rfl
  | drop _ e =>
    refine ⟨_, by simp only [Sys.act, hpc]; rfl, fun l => ?_⟩
    simp only [update_self, e.pc_outside.held_eq]
    rw [if_neg List.not_mem_nil]
    split_ifs with hl
    · rfl
    · rw [hM l, hpc]
      exact if_neg hl

theorem Leads.exec {r : Ret} (hl : Leads d pc d' r) (hd : s.d = d) (hpc : s.pc t = pc)
    (hM : s.Mine t) (hO : pc.Ordered) :
    ∃ k s', Run.exec Sys.act s (Act.steps t k) = some s' ∧ s'.d = d' ∧ s'.pc t = .done r ∧
      s'.Mine t := by
  obtain ⟨k, hk⟩ := hl
  induction k generalizing s d pc with
  | zero =>
    obtain ⟨rfl, rfl⟩ := Prod.mk.inj hk
    exact ⟨0, s, rfl, hd, hpc, hM⟩
  | succ _ ih =>
    subst hd hpc
    cases hb : (s.pc t).busy with
    | true =>
      obtain ⟨s₁, ha, hM₁⟩ := hM.step hO hb false
      obtain ⟨-, hd₁, hpc₁⟩ := Sys.act_solo ha
      rw [iterate_succ_apply] at hk
      obtain ⟨n, s', he, hrest⟩ := ih hd₁ (by rw [hpc₁, update_self]) hM₁
        (soloStep_ordered hO) hk
      refine ⟨n + 1, s', ?_, hrest⟩
      rw [Act.steps, List.replicate_succ, Run.exec, ha]
      exact he
    | false =>
      have hfix : soloStep false (s.d, s.pc t) = (s.d, s.pc t) := by
        cases hpc : s.pc t <;> rw [hpc] at hb <;> first | rfl | cases hb
      rw [iterate_fixed hfix] at hk
      obtain ⟨rfl, hpc⟩ := Prod.mk.inj hk
      exact ⟨0, s, rfl, rfl, hpc, hM⟩

structure Alone (t : ℕ) (s : Sys Name) (c : Option (TrieBenchmark.Call Name)) : Prop where
  index : IndexOk s.d
  mine : s.Mine t
  way : ∀ k, c = some k → OnWay s.d (s.pc t) k
  rest : c = none → (s.pc t).busy = false

theorem IndexOk.proper (hI : IndexOk d) : Proper d.fresh d.names :=
  pathMap_proper hI.rooted (fun _ => rfl) fun _ _ => hI.resolve_lt

theorem IndexOk.onWay (hI : IndexOk d) {c : Call Name} (hadm : ∀ a, c = .kill a → a < d.fresh) :
    OnWay d c.start c.made := by
  refine ⟨hI, c.start_outside.ordered, fun _ => .inr ?_⟩
  cases c with
  | op o => exact hI.due_op o
  | kill a => exact hI.due_kill (hadm a rfl)

omit [DecidableEq Name] in
def Sys.Open (t : ℕ) (s : Sys Name) : Prop :=
  (s.pc t).busy = true ∧ (s.pc t).closing = false

omit [DecidableEq Name] in
theorem Sys.Mine.start (hM : s.Mine t) (hb : (s.pc t).busy = false) (c : Call Name) :
    Sys.Mine ⟨s.d, s.locks, update s.pc t c.start⟩ t := by
  intro l
  have hnone : (s.pc t).held = [] := by
    cases hpc : s.pc t <;> rw [hpc] at hb <;> first | rfl | cases hb
  simp only [update_self, c.start_outside.held_eq]
  rw [hM l, hnone]

theorem engine_solo (t : ℕ) : (engine : Engine (Sys Name) (Act Name) Name).Solo (Alone t)
    (Sys.Open t) (fun s => s.d.fresh) (fun _ a => a.thread = t) (fun _ _ => False) := by
  refine ⟨fun s c hs => hs.index.proper, ?_, ?_⟩
  · intro s c₀ a c s' hs ht hc ha
    cases a with
    | step => cases hc
    | call u k =>
      obtain rfl : u = t := ht
      obtain rfl : k.made = c := some.inj hc
      have ha : s.act (.call u k) = some s' := ha
      simp only [Sys.act] at ha
      split_ifs at ha with hok
      obtain rfl := some.inj ha
      simp only [Bool.and_eq_true, Bool.not_eq_true'] at hok
      refine ⟨⟨hs.index, hs.mine.start hok.1 k, fun c hc => ?_, by simp⟩, rfl⟩
      obtain rfl := some.inj hc
      simp only [update_self]
      refine hs.index.onWay fun a hk => ?_
      subst hk
      simpa [Sys.admits] using hok.2
  · intro s c₀ a s' hs ht hc ha
    cases a with
    | call => cases hc
    | step u oom =>
      obtain rfl : u = t := ht
      have ha : s.act (.step u oom) = some s' := ha
      obtain ⟨hb, hd, hpc⟩ := Sys.act_solo ha
      obtain ⟨c, rfl⟩ : ∃ c, c₀ = some c := by
        cases c₀ with
        | none => exact absurd hb (by rw [hs.rest rfl]; exact Bool.false_ne_true)
        | some c => exact ⟨c, rfl⟩
      have hW := hs.way c rfl
      obtain ⟨hW', hT⟩ := hW.step hb oom
      obtain ⟨s'', ha'', hM⟩ := hs.mine.step hW.ordered hb oom
      obtain rfl := some.inj (ha.symm.trans ha'')
      have hpcu : s'.pc u = (soloStep oom (s.d, s.pc u)).2 := by rw [hpc, update_self]
      refine ⟨⟨hd ▸ hW'.index, hM, fun k hk => ?_, by simp⟩, ?_⟩
      · obtain rfl := some.inj hk
        rw [hd, hpcu]
        exact hW'
      · rw [← hd, ← hpcu] at hT
        cases hcl : (s.pc u).closing with
        | false =>
          refine .inl ⟨⟨hb, hcl⟩, fun h0 hopen => ?_, c, rfl, hT⟩
          have h0 : (s'.pc u).returnsZero = true := h0
          have hclosed := hopen.2
          cases hp : s'.pc u <;> rw [hp] at h0 hclosed <;> first | cases h0 | skip
          rename_i held e
          cases e with
          | again => cases h0
          | ret => cases hclosed
        | true =>
          right
          cases hp : s.pc u <;> rw [hp] at hcl hpcu hd <;> first | cases hcl | skip
          rename_i held e
          cases e with
          | again => cases hcl
          | ret =>
            refine ⟨fun hopen => ?_, ?_, congrArg Cache.names hd⟩
            · have hbusy := hopen.1
              rw [hpcu] at hbusy
              cases hbusy
            · show (s'.pc u).returnsZero = false
              rw [hpcu]
              rfl

theorem Alone.init (bucketOf : ℕ → Name → ℕ) (rootname : Name) (t : ℕ) :
    Alone t (Sys.init bucketOf rootname) none :=
  ⟨.create bucketOf rootname, fun _ => rfl, nofun, fun _ => rfl⟩

theorem init_names (bucketOf : ℕ → Name → ℕ) (rootname : Name) (p : List Name) (hp : p ≠ []) :
    (engine.names (Sys.init bucketOf rootname)).find p = none := by
  cases p with
  | nil => exact absurd rfl hp
  | cons n =>
    have hnone : (dcCreate bucketOf rootname).childLookup root n = none := rfl
    refine names_eq_none.mpr ?_
    rw [Cache.resolve, Namei.resolve, show (Sys.init bucketOf rootname).d.childLookup root n = none
      from hnone, bind_none]

def Sys.Finds (s : Sys Name) (t : ℕ) (path : List Name) (h : ℕ) : Prop :=
  ∃ k s' hosts, exec Sys.act s (Act.op t (.lookup path) k) = some s' ∧
    s'.pc t = .done (.lookup .positive hosts) ∧ hosts.getLast? = some h

theorem Sys.Mine.finds_iff (hM : s.Mine t) (hb : (s.pc t).busy = false) {path : List Name} {h : ℕ}
    (hne : path ≠ []) :
    s.Finds t path h ↔ s.d.resolve path = some h ∧ (s.d.dentry h).neg = false := by
  have hcall : s.act (.call t (.op (.lookup path))) =
      some ⟨s.d, s.locks, update s.pc t (.lkHop root path [] .positive)⟩ := by
    simp [Sys.act, hb, Sys.admits, Call.start, opStart]
  have hstop : ∀ (s : Sys Name) r, s.pc t = .done r → s.act (.step t false) = none := by
    intro s r hpc
    simp [Sys.act, hpc]
  obtain ⟨k, s', he, -, hpc, -⟩ := (leads_lookup root path [] .positive).exec (t := t)
    (s := ⟨s.d, s.locks, update s.pc t (.lkHop root path [] .positive)⟩) rfl
    (update_self ..) (hM.start hb (.op (.lookup path))) trivial
  exact lookup_iff (fun _ _ => Pc.done.inj) hstop hcall he hpc hne

theorem client (bucketOf : ℕ → Name → ℕ) (rootname : Name) (t : ℕ) :
    engine.Client (Alone t) (Sys.Open t) (fun s => s.d.fresh) (fun _ a => a.thread = t)
      (fun _ _ => False) (Sys.init bucketOf rootname) (fun s => s.d.tree) root
      (fun s => (s.pc t).busy = false) (fun s => s.Finds t) :=
  ⟨engine_solo t, .init bucketOf rootname t, init_names bucketOf rootname, fun _ => rfl,
    fun _ _ hs hrest => ⟨hs.index.listed, hs.index.kids_nodup, hs.index.rooted,
      hs.index.rootSelf.2.1, fun _ => rfl, fun _ _ hne => hs.mine.finds_iff hrest hne⟩⟩

end TrieBenchmark.Seqlock
