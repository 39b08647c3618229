import TrieBenchmark.Txn.Invariant
import TrieBenchmark.Lib.Owner

/-!
Who owns a `d_moving` flag. Each successful compare-and-swap credits the flag to its thread; a
thread's own account is what its program counter says it has set and not cleared.
-/

namespace TrieBenchmark.Txn

open List Option Cache Function Owner Run

variable {Name : Type} {d d' : Cache Name} {arm : Arm}

def Cache.flags (d : Cache Name) (a : ℕ) : Bool :=
  (d.dentry a).moving

def stackOwns (d : Cache Name) (m : Move Name) (top : ℕ) : List ℕ :=
  if m.cross then [d.hostOf top] else []

def exchangeOwns (d : Cache Name) (x : Xchg Name) (topa topb : ℕ) : List ℕ :=
  if x.cross then [d.hostOf topa, d.hostOf topb] else []

namespace Pc

@[grind =] def stacking : Pc Name → Option (Move Name × ℕ)
  | .stkGray m top | .stkGuard m top | .stkHead m top _ | .stkScan m top _
  | .stkJudge m top _ _ | .stkNeg m top _ _ | .stkSib m top _ | .stkOld m top _
  | .stkWalk m top _ _ _ _ | .stkHop m top _ _ _ _ | .stkCommit m top _ _
  | .stkClear m top _ => some (m, top)
  | _ => none

@[grind =] def exchanging : Pc Name → Option (Xchg Name × ℕ × ℕ)
  | .xchGrayLo x topa topb | .xchGrayHi x topa topb | .xchDropLo x topa topb
  | .xchGuardA x topa topb | .xchGuardB x topa topb _ | .xchLinks x topa topb _
  | .xchOld x topa topb _ | .xchWalk x topa topb _ _ _ _ _ _ | .xchHop x topa topb _ _ _ _ _ _
  | .xchCommit x topa topb _ _ _ | .xchClearA x topa topb _
  | .xchClearB x topa topb _ => some (x, topa, topb)
  | _ => none

def owns (d : Cache Name) : Pc Name → List ℕ
  | .stkGray .. | .xchGrayLo .. => []
  | .xchGrayHi _ topa topb | .xchDropLo _ topa topb => [d.lo topa topb]
  | .xchClearB _ _ topb _ => [d.hostOf topb]
  | pc => (pc.stacking.elim [] fun p => stackOwns d p.1 p.2) ++
      pc.exchanging.elim [] fun p => exchangeOwns d p.1 p.2.1 p.2.2

def ended : Pc Name → Bool
  | .idle | .done _ | .stkState _ | .stkQueue _ | .xchFindA _ | .xchQueueA .. | .xchQueueB _ => true
  | _ => false

def passes (d : Cache Name) : Pc Name → Option ℕ
  | .stkWalk _ top _ _ cur hops =>
    if reparentHop d (d.hostOf top) cur hops = .climb then some cur else none
  | .xchWalk _ topa topb _ _ _ second cur hops =>
    if reparentHop d (d.hostOf (if second then topb else topa)) cur hops = .climb then some cur
    else none
  | _ => none

def flagging : Pc Name → Bool
  | .stkGray .. | .stkClear .. | .xchGrayLo .. | .xchGrayHi .. | .xchDropLo .. | .xchClearA ..
  | .xchClearB .. => true
  | _ => false

structure Fits (d : Cache Name) (pc : Pc Name) : Prop where
  stack : ∀ m top, pc.stacking = some (m, top) → top < d.fresh ∧ (pc.flagging = true → m.cross)
  exchange : ∀ x topa topb, pc.exchanging = some (x, topa, topb) → topa < d.fresh ∧ topb < d.fresh ∧
    (pc.flagging = true → x.cross) ∧
    (x.cross → (∀ x topa topb, pc ≠ .xchGrayLo x topa topb) → d.hostOf topa ≠ d.hostOf topb)
  found : ∀ x topa, pc = .xchFindB x (some topa) → topa < d.fresh

theorem owns_ended {pc : Pc Name} (h : pc.ended = true) : pc.owns d = [] := by
  cases pc <;> first | rfl | cases h

theorem owns_stackEnds (m : Move Name) (top : ℕ) (o : Outcome ℕ) :
    (stackEnds m top o).owns d = (stkGuard m top).owns d := by
  unfold stackEnds
  split_ifs with hc
  · rfl
  · cases o <;> simp [afterStack, owns, stacking, exchanging, stackOwns, hc, Pc.ret]

theorem owns_exchangeEnds (x : Xchg Name) (topa topb : ℕ) (o : Outcome (ℕ × ℕ)) :
    (exchangeEnds x topa topb o).owns d = (xchGuardA x topa topb).owns d := by
  unfold exchangeEnds
  split_ifs with hc
  · rfl
  · cases o <;> simp [afterExchange, owns, stacking, exchanging, exchangeOwns, hc, Pc.ret]

theorem not_flagged_of_passes {pc : Pc Name} {cur : ℕ} (h : pc.passes d = some cur) :
    d.flags cur = false := by
  have hclimb : ∀ host hops, reparentHop d host cur hops = .climb → d.flags cur = false := by
    intro host hops hc
    unfold reparentHop at hc
    split_ifs at hc with h₁ h₂ h₃ h₄
    simpa [Cache.flags] using h₃
  cases pc with
  | stkWalk =>
    simp only [passes] at h
    split_ifs at h with hc
    obtain rfl := some.inj h
    exact hclimb _ _ hc
  | xchWalk _ topa topb _ _ _ second =>
    simp only [passes] at h
    generalize d.hostOf (if second then topb else topa) = host at h
    split_ifs at h with hc
    obtain rfl := some.inj h
    exact hclimb _ _ hc
  | _ => cases h

def foundTop : Pc Name → Option ℕ
  | .xchFindB _ topa => topa
  | _ => none

namespace Fits

variable {pc : Pc Name} {m : Move Name} {x : Xchg Name} {top topa topb : ℕ}

theorem of_none (hs : pc.stacking = none) (hx : pc.exchanging = none)
    (hf : pc.foundTop = none) : Fits d pc :=
  ⟨by simp [hs], by simp [hx], fun x topa h => by simp [h, foundTop] at hf⟩

theorem of_stacking (hs : pc.stacking = some (m, top)) (htop : top < d.fresh)
    (hm : pc.flagging = true → m.cross) : Fits d pc := by
  refine ⟨fun m' top' h => ?_, fun x ta tb h => ?_, fun x ta h => ?_⟩
  · obtain ⟨rfl, rfl⟩ : m = m' ∧ top = top' := by simpa [hs] using h
    exact ⟨htop, hm⟩
  · cases pc <;> first | (cases hs; done) | cases h
  · subst h
    cases hs

theorem of_exchanging (hx : pc.exchanging = some (x, topa, topb)) (ha : topa < d.fresh)
    (hb : topb < d.fresh) (hc : pc.flagging = true → x.cross)
    (hne : x.cross → (∀ x topa topb, pc ≠ .xchGrayLo x topa topb) →
      d.hostOf topa ≠ d.hostOf topb) : Fits d pc := by
  refine ⟨fun m top h => ?_, fun x' ta tb h => ?_, fun x ta h => ?_⟩
  · cases pc <;> first | (cases hx; done) | cases h
  · obtain ⟨rfl, rfl, rfl⟩ : x = x' ∧ topa = ta ∧ topb = tb := by simpa [hx] using h
    exact ⟨ha, hb, hc, hne⟩
  · subst h
    cases hx

theorem stackEnds (htop : top < d.fresh) (o : Outcome ℕ) : Fits d (stackEnds m top o) := by
  unfold Txn.stackEnds
  split_ifs with hc
  · exact .of_stacking rfl htop fun _ => hc
  · cases o <;> exact .of_none rfl rfl rfl

theorem exchangeEnds (ha : topa < d.fresh) (hb : topb < d.fresh)
    (hne : x.cross → d.hostOf topa ≠ d.hostOf topb) (o : Outcome (ℕ × ℕ)) :
    Fits d (exchangeEnds x topa topb o) := by
  unfold Txn.exchangeEnds
  split_ifs with hc
  · exact .of_exchanging rfl ha hb (fun _ => hc) fun _ _ => hne hc
  · cases o <;> exact .of_none rfl rfl rfl

theorem mono (hF : Fits d pc) (hfresh : d.fresh ≤ d'.fresh) (hk : SameKind d d') : Fits d' pc := by
  refine ⟨fun m top h => ?_, fun x topa topb h => ?_, fun x topa h => ?_⟩
  · obtain ⟨ht, hm⟩ := hF.stack m top h
    exact ⟨Nat.lt_of_lt_of_le ht hfresh, hm⟩
  · obtain ⟨ha, hb, hc, hne⟩ := hF.exchange x topa topb h
    refine ⟨Nat.lt_of_lt_of_le ha hfresh, Nat.lt_of_lt_of_le hb hfresh, hc, fun hx hlo => ?_⟩
    rw [hk.hostOf ha, hk.hostOf hb]
    exact hne hx hlo
  · exact Nat.lt_of_lt_of_le (hF.found x topa h) hfresh

theorem owns_congr (hF : Fits d pc) (hk : SameKind d d') : pc.owns d' = pc.owns d := by
  have hs : ∀ m top, pc.stacking = some (m, top) → d'.hostOf top = d.hostOf top :=
    fun m top h => hk.hostOf (hF.stack m top h).1
  have hx : ∀ x topa topb, pc.exchanging = some (x, topa, topb) →
      d'.hostOf topa = d.hostOf topa ∧ d'.hostOf topb = d.hostOf topb :=
    fun x topa topb h => ⟨hk.hostOf (hF.exchange x topa topb h).1,
      hk.hostOf (hF.exchange x topa topb h).2.1⟩
  cases pc <;>
    first
    | rfl
    | simp [owns, stacking, exchanging, stackOwns, hs _ _ rfl]
    | simp [owns, stacking, exchanging, exchangeOwns, Cache.lo, hx _ _ _ rfl]

theorem owns_lt (hF : Fits d pc) (hI : IndexOk d) {a : ℕ} (ha : a ∈ pc.owns d) : a < d.fresh := by
  have hs : ∀ m top, pc.stacking = some (m, top) → d.hostOf top < d.fresh :=
    fun m top h => (hI.hostOf_host (hF.stack m top h).1).1
  have hx : ∀ x topa topb, pc.exchanging = some (x, topa, topb) →
      d.hostOf topa < d.fresh ∧ d.hostOf topb < d.fresh :=
    fun x topa topb h => ⟨(hI.hostOf_host (hF.exchange x topa topb h).1).1,
      (hI.hostOf_host (hF.exchange x topa topb h).2.1).1⟩
  cases pc <;>
    first
    | (cases ha; done)
    | (have h := hs _ _ rfl
       simp only [owns, stacking, exchanging, stackOwns, Option.elim, append_nil] at ha
       split_ifs at ha <;> simp_all)
    | (have h := hx _ _ _ rfl
       simp only [owns, stacking, exchanging, exchangeOwns, Option.elim, nil_append] at ha
       split_ifs at ha <;> simp at ha <;> omega)
    | (have h := hx _ _ _ rfl
       simp only [owns, mem_singleton, Cache.lo] at ha
       omega)

end Fits

end Pc

namespace Cache

variable {a : ℕ}

theorem flags_modify (f : Dentry Name → Dentry Name) (hf : ∀ e, (f e).moving = e.moving) :
    (d.modify a f).flags = d.flags := by
  funext b
  rcases eq_or_ne b a with rfl | hne
  · simp [flags, hf]
  · simp [flags, modify_of_ne _ _ _ _ hne]

theorem flags_alloc {e : Dentry Name} (he : e.moving = false) (hfree : d.flags d.fresh = false) :
    (d.alloc e).flags = d.flags := by
  funext b
  rcases eq_or_ne b d.fresh with rfl | hne
  · simpa [flags, alloc, he] using hfree.symm
  · simp [flags, alloc, hne]

theorem flags_setMoving (b : Bool) : (d.setMoving a b).flags = update d.flags a b := by
  funext c
  rcases eq_or_ne c a with rfl | hne
  · simp [flags, setMoving]
  · simp [flags, setMoving, modify_of_ne _ _ _ _ hne, hne]

theorem flags_congr (h : d'.dentry = d.dentry) : d'.flags = d.flags := by
  funext a
  simp [flags, h]

theorem flags_setTop (o : Option ℕ) : (d.setTop a o).flags = d.flags :=
  flags_modify _ fun _ => rfl

theorem flags_setParent (p : ℕ) : (d.setParent a p).flags = d.flags :=
  flags_modify _ fun _ => rfl

theorem flags_setIparent (p : ℕ) : (d.setIparent a p).flags = d.flags :=
  flags_modify _ fun _ => rfl

theorem flags_setIname (name : Name) : (d.setIname a name).flags = d.flags :=
  flags_modify _ fun _ => rfl

theorem flags_flip (negative : Bool) : (d.flip a negative).flags = d.flags :=
  flags_modify _ fun _ => rfl

theorem flags_edit (e : Edits.Edit ℕ) : (d.edit e).flags = d.flags :=
  rfl

theorem flags_bumpGen : (d.bumpGen arm a).flags = d.flags :=
  flags_congr (bumpGen_dentry _ _ _)

theorem flags_stackCommit (m : Move Name) (top : ℕ) (neg : Option ℕ)
    (hfree : d.flags d.fresh = false) : (d.stackCommit arm m top neg).flags = d.flags := by
  have halloc := flags_alloc (e := newShell m.newParent m.newName (d.hostOf top)) rfl hfree
  unfold stackCommit
  rw [flags_edit, ← halloc]
  split_ifs
  · rw [flags_setParent, flags_bumpGen, flags_setTop]
  · rw [flags_bumpGen, flags_setTop]

theorem flags_exchangeCommit (x : Xchg Name) (topa topb : ℕ)
    (hfree : ∀ a, d.fresh ≤ a → d.flags a = false) :
    (d.exchangeCommit arm x topa topb).flags = d.flags := by
  have ha := flags_alloc (e := newShell x.pb x.nb (d.hostOf topa)) rfl (hfree _ (Nat.le_refl _))
  have hb := flags_alloc (d := d.alloc (newShell x.pb x.nb (d.hostOf topa)))
    (e := newShell x.pa x.na (d.hostOf topb)) rfl
    ((congrFun ha _).trans (hfree _ (Nat.le_succ _)))
  unfold exchangeCommit
  rw [flags_edit, ← ha, ← hb]
  split_ifs
  · rw [flags_setParent, flags_setParent, flags_bumpGen, flags_bumpGen, flags_setTop, flags_setTop]
  · rw [flags_bumpGen, flags_bumpGen, flags_setTop, flags_setTop]

theorem flags_foldCommit (n : ℕ) : (d.foldCommit arm n).flags = d.flags := by
  unfold foldCommit
  rw [flags_edit, flags_setTop]
  split_ifs
  · exact flags_setIparent _
  · rfl

end Cache

section Step

variable [DecidableEq Name] {pc : Pc Name} {ans : Answer}

theorem findTop_lt (hI : IndexOk d) {parent top : ℕ} {name : Name}
    (h : d.findTop parent name = some top) : top < d.fresh :=
  (hI.alloc top (hI.findTop_eq_some.mp h).1).1

def Pc.twoHosts (d : Cache Name) : Pc Name → Bool
  | .xchGrayLo _ topa topb => d.hostOf topa ≠ d.hostOf topb
  | _ => true

theorem stepPc_flags (hfree : ∀ a, d.fresh ≤ a → d.flags a = false) (h : pc.flagging = false) :
    (stepPc arm d pc ans).1.flags = d.flags := by
  by_cases hr : pc.reads = true
  · rw [stepPc_reads hr]
  cases pc with
  | addCommit =>
    simp only [stepPc]
    split_ifs
    all_goals first | rfl | skip
    exact (flags_congr rfl).trans (flags_alloc rfl (hfree _ (Nat.le_refl _)))
  | setId =>
    simp only [stepPc]
    split_ifs
    · rfl
    · exact flags_modify _ fun _ => rfl
  | setCommit =>
    simp only [stepPc]
    split_ifs
    all_goals first | rfl | exact flags_flip _
  | unlCommit =>
    simp only [stepPc]
    split_ifs
    all_goals first | rfl | exact flags_congr (removeCommit_dentry ..)
  | stkCommit m top =>
    simp only [stepPc]
    split_ifs
    all_goals first | rfl | exact flags_stackCommit m top _ (hfree _ (Nat.le_refl _))
  | xchCommit x topa topb =>
    simp only [stepPc]
    split_ifs
    all_goals first | rfl | exact flags_exchangeCommit x topa topb hfree
  | fldName => exact flags_setIname _
  | fldSwap =>
    simp only [stepPc]
    split_ifs
    · exact flags_setIparent _
    · rfl
  | fldCommit n =>
    simp only [stepPc]
    split_ifs
    all_goals first | rfl | exact flags_foldCommit n
  | _ => first | exact absurd rfl hr | (cases h; done) | (simp only [stepPc]; (repeat' split) <;> rfl)

/-- Other points keep what the thread owns, and all lead to points that fit. -/
theorem stepPc_fits (hI : IndexOk d) (hF : pc.Fits d) :
    (pc.twoHosts d = true → (stepPc arm d pc ans).2.Fits d) ∧
      (pc.flagging = false → (stepPc arm d pc ans).2.owns d = pc.owns d) := by
  cases pc with
  | stkFind m =>
    simp only [stepPc]
    split
    · exact ⟨fun _ => .of_none rfl rfl rfl, fun _ => rfl⟩
    · rename_i top hf
      split_ifs with hc
      · exact ⟨fun _ => .of_stacking rfl (findTop_lt hI hf) fun _ => hc, fun _ => rfl⟩
      · exact ⟨fun _ => .of_stacking rfl (findTop_lt hI hf) (by rintro ⟨⟩), fun _ => by
          simp [Pc.owns, Pc.stacking, Pc.exchanging, stackOwns, hc]⟩
  | xchFindA =>
    refine ⟨fun _ => ⟨by rintro _ _ ⟨⟩, by rintro _ _ _ ⟨⟩, fun x' topa h => ?_⟩, fun _ => rfl⟩
    simp only [stepPc, Pc.xchFindB.injEq] at h
    exact findTop_lt hI h.2
  | xchFindB x topa =>
    simp only [stepPc]
    split
    · rename_i ta tb hf
      split_ifs with hc
      · exact ⟨fun _ => .of_exchanging rfl (hF.found x ta rfl) (findTop_lt hI hf) (fun _ => hc)
          fun _ h => absurd rfl (h x ta tb), fun _ => rfl⟩
      · exact ⟨fun _ => .of_exchanging rfl (hF.found x ta rfl) (findTop_lt hI hf) (by rintro ⟨⟩)
          fun h => absurd h hc, fun _ => by
            simp [Pc.owns, Pc.stacking, Pc.exchanging, exchangeOwns, hc]⟩
    · exact ⟨fun _ => .of_none rfl rfl rfl, fun _ => rfl⟩
  | xchGrayLo x topa topb =>
    obtain ⟨ha, hb, hc, -⟩ := hF.exchange x topa topb rfl
    refine ⟨fun htwo => ?_, by rintro ⟨⟩⟩
    simp only [stepPc]
    split_ifs
    · exact .of_none rfl rfl rfl
    · exact .of_exchanging rfl ha hb (fun _ => hc rfl) fun _ _ => by
        simpa [Pc.twoHosts] using htwo
  | xchDropLo => exact ⟨fun _ => .of_none rfl rfl rfl, by rintro ⟨⟩⟩
  | xchGrayHi x topa topb | xchGuardA x topa topb | xchGuardB x topa topb g
  | xchLinks x topa topb g | xchOld x topa topb g
  | xchWalk x topa topb g olda oldb second cur hops
  | xchHop x topa topb g olda oldb second cur hops | xchCommit x topa topb g olda oldb
  | xchClearA x topa topb o =>
    obtain ⟨ha, hb, hc, hne⟩ := hF.exchange x topa topb rfl
    have hhosts : x.cross → d.hostOf topa ≠ d.hostOf topb := fun hx => hne hx (by simp)
    simp only [stepPc]
    (repeat' split) <;> refine ⟨fun _ => ?_, fun hf => ?_⟩ <;>
      first
      | exact .exchangeEnds ha hb hhosts _
      | exact .of_exchanging rfl ha hb (fun _ => hc rfl) fun hx _ => hhosts hx
      | exact .of_exchanging rfl ha hb (by rintro ⟨⟩) fun hx _ => hhosts hx
      | rfl
      | exact Pc.owns_exchangeEnds ..
      | cases hf
  | stkGray m top | stkGuard m top | stkHead m top g | stkScan m top g | stkJudge m top g cur
  | stkNeg m top g cur | stkSib m top g | stkOld m top g | stkWalk m top g oldp cur hops
  | stkHop m top g oldp cur hops | stkCommit m top g oldp =>
    obtain ⟨ht, hc⟩ := hF.stack m top rfl
    simp only [stepPc]
    (repeat' split) <;> refine ⟨fun _ => ?_, fun hf => ?_⟩ <;>
      first
      | exact .stackEnds ht _
      | exact .of_stacking rfl ht (by rintro ⟨⟩)
      | exact .of_none rfl rfl rfl
      | rfl
      | exact Pc.owns_stackEnds ..
      | cases hf
  | stkClear _ _ o | xchClearB _ _ _ o =>
    exact ⟨fun _ => by cases o <;> exact .of_none rfl rfl rfl, by rintro ⟨⟩⟩
  | walk _ rest k => cases rest <;> cases k <;> simp only [stepPc] <;> (try split) <;>
      exact ⟨fun _ => .of_none rfl rfl rfl, fun _ => rfl⟩
  | lkHop _ _ _ rest => cases rest <;> cases arm <;>
      exact ⟨fun _ => .of_none rfl rfl rfl, fun _ => rfl⟩
  | lkScan _ node => cases node <;> simp only [stepPc] <;> split <;>
      exact ⟨fun _ => .of_none rfl rfl rfl, fun _ => rfl⟩
  | lkUp _ _ todo => cases todo <;> simp only [stepPc, Pc.lkStart] <;> (repeat' split) <;>
      exact ⟨fun _ => .of_none rfl rfl rfl, fun _ => rfl⟩
  | idle | done => exact ⟨fun _ => .of_none rfl rfl rfl, fun _ => rfl⟩
  | _ =>
    simp only [stepPc, Pc.lkStart]
    (repeat' split) <;> exact ⟨fun _ => .of_none rfl rfl rfl, fun _ => rfl⟩

/-- A step sets a flag that was clear, clears one of the thread's own, or leaves them alone. -/
theorem stepPc_change (hI : IndexOk d) (hfree : ∀ a, d.fresh ≤ a → d.flags a = false) (hF : pc.Fits d) :
    Change d.flags (pc.owns d) (stepPc arm d pc ans).1.flags ((stepPc arm d pc ans).2.owns d) := by
  cases hf : pc.flagging with
  | false =>
    rw [stepPc_flags hfree hf, (stepPc_fits hI hF).2 hf]
    exact .keep fun _ => Iff.rfl
  | true =>
    cases pc with
    | stkGray m top =>
      have hc := (hF.stack m top rfl).2 rfl
      simp only [stepPc]
      split_ifs with hm
      · exact .keep fun _ => Iff.rfl
      · rw [flags_setMoving]
        exact .set (by simpa [Cache.flags] using hm) fun b => by
          simp [Pc.owns, Pc.stacking, Pc.exchanging, stackOwns, hc]
    | stkClear m top o =>
      have hc := (hF.stack m top rfl).2 rfl
      simp only [stepPc]
      rw [flags_setMoving, show (afterStack m o).owns d = [] by cases o <;> rfl]
      apply Change.clear <;> simp [Pc.owns, Pc.stacking, Pc.exchanging, stackOwns, hc]
    | xchGrayLo =>
      simp only [stepPc]
      split_ifs with hm
      · exact .keep fun _ => Iff.rfl
      · rw [flags_setMoving]
        exact .set (by simpa [Cache.flags] using hm) fun b => by simp [Pc.owns]
    | xchGrayHi x topa topb =>
      obtain ⟨-, -, hc, hne⟩ := hF.exchange x topa topb rfl
      have hc := hc rfl
      have hne := hne hc (by simp)
      simp only [stepPc]
      split_ifs with heq hm
      · -- the two hosts differ
        exfalso
        unfold Cache.hi Cache.lo at heq
        omega
      · exact .keep fun _ => Iff.rfl
      · rw [flags_setMoving]
        refine .set (by simpa [Cache.flags] using hm) fun b => ?_
        simp only [Pc.owns, Pc.stacking, Pc.exchanging, exchangeOwns, hc, Option.elim, if_true,
          nil_append, mem_cons, not_mem_nil, or_false, Cache.lo, Cache.hi]
        omega
    | xchDropLo =>
      simp only [stepPc]
      rw [flags_setMoving]
      apply Change.clear <;> simp [Pc.owns, Pc.stacking, Pc.exchanging]
    | xchClearA x topa topb =>
      obtain ⟨-, -, hc, hne⟩ := hF.exchange x topa topb rfl
      have hc := hc rfl
      have hne := hne hc (by simp)
      simp only [stepPc]
      rw [flags_setMoving]
      refine .clear ?_ fun b => ?_
      · simp [Pc.owns, Pc.stacking, Pc.exchanging, exchangeOwns, hc]
      · simp only [Pc.owns, Pc.stacking, Pc.exchanging, exchangeOwns, hc, Option.elim, if_true,
          nil_append, mem_cons, not_mem_nil, or_false]
        omega
    | xchClearB x _ _ o =>
      simp only [stepPc]
      rw [flags_setMoving, show (afterExchange x o).owns d = [] by cases o <;> rfl]
      apply Change.clear <;> simp [Pc.owns]
    | _ => cases hf

end Step

variable [DecidableEq Name]

omit [DecidableEq Name] in
theorem Starts.owns {c : Call Name} {pc : Pc Name} (h : Starts arm c pc) (d : Cache Name) :
    pc.owns d = [] ∧ pc.Fits d := by
  cases arm <;> cases h <;> exact ⟨rfl, .of_none rfl rfl rfl⟩

theorem Inv.change {s s' : Sys Name} {S : ℕ → Set ℕ} {a : Act Name} (hV : Inv arm s S)
    (hfits : ∀ t, (s.pc t).Fits s.d) (hfree : ∀ h, s.d.fresh ≤ h → s.d.flags h = false)
    (ha : s.act arm a = some s') :
    Change s.d.flags ((s.pc a.thread).owns s.d) s'.d.flags ((s'.pc a.thread).owns s.d) ∧
      ((s.pc a.thread).twoHosts s.d = true → (s'.pc a.thread).Fits s.d) ∧
      s'.pc = update s.pc a.thread (s'.pc a.thread) ∧
      s.d.fresh ≤ s'.d.fresh ∧ SameKind s.d s'.d := by
  rcases Sys.act_cases ha with ⟨t, c, rfl, hidle, -, rfl⟩ | ⟨t, ans, rfl, hb, rfl⟩
  · have hold : (s.pc t).owns s.d = [] := by
      cases hpc : s.pc t <;> first | rfl | (rw [hpc] at hidle; cases hidle)
    have hnew := (callStart_starts arm c).owns s.d
    simp only [Act.thread, update_self]
    rw [hold, hnew.1]
    exact ⟨.keep fun _ => Iff.rfl, fun _ => hnew.2, trivial, Nat.le_refl _, fun _ _ => ⟨rfl, rfl, rfl⟩⟩
  · obtain ⟨touched, back, hE, -⟩ : ∃ touched back, Effect arm (fun _ => True) s.d touched back
      (stepPc arm s.d (s.pc t) ans).1 ∧ _ := hV.effect ans hb fun _ _ => trivial
    have hH := hE.indexStep hV.index
    simp only [Act.thread, update_self]
    exact ⟨stepPc_change hV.index hfree (hfits t), (stepPc_fits hV.index (hfits t)).1, trivial,
      hH.fresh, hH.kind⟩

structure Flagged (Name : Type) where
  s : Sys Name
  setBy : ℕ → Option ℕ

namespace Flagged

def init (bucketOf : ℕ → Name → ℕ) (rootname : Name) : Flagged Name :=
  ⟨.init bucketOf rootname, fun _ => none⟩

def act (arm : Arm) (f : Flagged Name) (a : Act Name) : Option (Flagged Name) :=
  (f.s.act arm a).map fun s' => ⟨s', credit f.s.d.flags s'.d.flags f.setBy a.thread⟩

/-- No exchange takes its flags where it has found one host under both names. -/
def TwoHosts (f : Flagged Name) (a : Act Name) : Prop :=
  (f.s.pc a.thread).twoHosts f.s.d = true

instance (f : Flagged Name) (a : Act Name) : Decidable (f.TwoHosts a) :=
  inferInstanceAs (Decidable (_ = _))

structure Ok (arm : Arm) (f : Flagged Name) : Prop where
  inv : ∃ S, Inv arm f.s S
  fits : ∀ t, (f.s.pc t).Fits f.s.d
  owned : Owned f.s.d.flags f.setBy fun t => (f.s.pc t).owns f.s.d

namespace Ok

variable {f f' : Flagged Name} {s' : Sys Name} {a : Act Name}

omit [DecidableEq Name] in
theorem free (hO : Ok arm f) {h : ℕ} (hh : f.s.d.fresh ≤ h) : f.s.d.flags h = false := by
  obtain ⟨S, hV⟩ := hO.inv
  by_contra hne
  obtain ⟨t, ht⟩ := hO.owned.flag_iff.mp (by simpa using hne)
  exact Nat.not_lt.mpr hh ((hO.fits t).owns_lt hV.index ht)

omit [DecidableEq Name] in
theorem init (arm : Arm) (bucketOf : ℕ → Name → ℕ) (rootname : Name) :
    Ok arm (Flagged.init bucketOf rootname) := by
  refine ⟨⟨fun _ => ∅, .init arm bucketOf rootname _⟩, fun t => .of_none rfl rfl rfl, ?_, ?_⟩
  · intro t h
    exact ⟨nofun, nofun⟩
  · intro h
    exact nofun

theorem change (hO : Ok arm f) (ha : f.s.act arm a = some s') :
    Change f.s.d.flags ((f.s.pc a.thread).owns f.s.d) s'.d.flags
        ((s'.pc a.thread).owns f.s.d) ∧
      (f.TwoHosts a → (s'.pc a.thread).Fits f.s.d) ∧
      s'.pc = update f.s.pc a.thread (s'.pc a.thread) ∧
      f.s.d.fresh ≤ s'.d.fresh ∧ SameKind f.s.d s'.d := by
  obtain ⟨S, hV⟩ := hO.inv
  exact hV.change hO.fits (fun _ => hO.free) ha

theorem act (hO : Ok arm f) (htwo : f.TwoHosts a) (ha : f.act arm a = some f') : Ok arm f' := by
  obtain ⟨s', hs, rfl⟩ := map_eq_some_iff.mp ha
  obtain ⟨hC, hfits, hpc, hfresh, hk⟩ := hO.change hs
  obtain ⟨S, hV⟩ := hO.inv
  have hfits' : ∀ u, (s'.pc u).Fits f.s.d := by
    intro u
    rcases eq_or_ne u a.thread with rfl | hne
    · exact hfits htwo
    · rw [hpc, update_of_ne hne]
      exact hO.fits u
  refine ⟨⟨_, hV.act hs⟩, fun u => (hfits' u).mono hfresh hk, ?_⟩
  have howns : (fun u => (s'.pc u).owns s'.d) = update (fun u => (f.s.pc u).owns f.s.d)
      a.thread ((s'.pc a.thread).owns f.s.d) := by
    funext u
    rw [(hfits' u).owns_congr hk]
    rcases eq_or_ne u a.thread with rfl | hne
    · rw [update_self]
    · rw [update_of_ne hne, hpc, update_of_ne hne]
  show Owned s'.d.flags (credit f.s.d.flags s'.d.flags f.setBy a.thread) fun u =>
    (s'.pc u).owns s'.d
  rw [howns]
  exact hO.owned.step hC

theorem reach {bucketOf : ℕ → Name → ℕ} {rootname : Name}
    (hr : Reach (Flagged.act arm) TwoHosts (Flagged.init bucketOf rootname) f) : Ok arm f :=
  hr.invariant (.init arm bucketOf rootname) fun _ _ _ hO htwo ha => hO.act htwo ha

end Ok

end Flagged

/-- In every run whose exchanges take their flags of two hosts: a flag is set exactly while one
thread owns it, only that thread clears it, a thread whose attempt has ended owns none, and an
ancestry walk passes no host that is being moved. -/
theorem reach_flags_owned {bucketOf : ℕ → Name → ℕ} {rootname : Name} {f : Flagged Name}
    (hr : Reach (Flagged.act arm) Flagged.TwoHosts (Flagged.init bucketOf rootname) f) :
    (∀ h, f.s.d.flags h = true ↔ ∃ t, h ∈ (f.s.pc t).owns f.s.d) ∧
      (∀ h t u, h ∈ (f.s.pc t).owns f.s.d → h ∈ (f.s.pc u).owns f.s.d → t = u) ∧
      (∀ a f', f.act arm a = some f' → ∀ h, f.s.d.flags h = true → f'.s.d.flags h = false →
        f.setBy h = some a.thread) ∧
      (∀ t, (f.s.pc t).ended = true → ∀ h, f.s.d.flags h = true → f.setBy h ≠ some t) ∧
      ∀ t cur, (f.s.pc t).passes f.s.d = some cur → ∀ u, cur ∉ (f.s.pc u).owns f.s.d := by
  have hO := Flagged.Ok.reach hr
  refine ⟨fun h => hO.owned.flag_iff, fun h t u => hO.owned.unique, ?_, ?_, ?_⟩
  · intro a f' ha h hset hclear
    obtain ⟨s', hs, rfl⟩ := map_eq_some_iff.mp ha
    exact hO.owned.owner_of_cleared (hO.change hs).1 hset hclear
  · intro t hend h hset hby
    have hmem := (hO.owned.mem t h).mpr ⟨hset, hby⟩
    rw [Pc.owns_ended hend] at hmem
    cases hmem
  · intro t cur hpass u hmem
    have hset := hO.owned.flag_of_mem hmem
    rw [Pc.not_flagged_of_passes hpass] at hset
    cases hset

/-- The exchange of `/1/3` and `/2/4`, between its commit and its first clear. -/
theorem reach_flags_owned_exchange : ∃ f f' : Flagged ℕ,
    Reach (Flagged.act .mark) Flagged.TwoHosts (Flagged.init (fun _ _ => 0) 0) f ∧
      f.act .mark (.step 0 .ok) = some f' ∧ f.s.d.flags 3 = true ∧ f'.s.d.flags 3 = false ∧
      f.setBy 3 = some 0 := by
  have he : ((exec (guarded (Flagged.act .mark) Flagged.TwoHosts) (Flagged.init (fun _ _ => 0) 0)
      (Act.op 1 (.add [1] 0) 6 ++ Act.op 1 (.add [2] 0) 6 ++ Act.op 1 (.addFile [1, 3] 0) 7 ++
        Act.op 1 (.addFile [2, 4] 0) 7 ++ Act.op 0 (.exchange [1, 3] [2, 4]) 21)).bind fun f =>
          (f.act .mark (.step 0 .ok)).map fun f' => (f.s.d.flags 3, f'.s.d.flags 3)) =
      some (true, false) := by
    rfl
  obtain ⟨f, hf, he⟩ := bind_eq_some_iff.mp he
  obtain ⟨f', ha, he⟩ := map_eq_some_iff.mp he
  simp only [Prod.mk.injEq] at he
  have hr := (reach_exec hf).of_guarded
  exact ⟨f, f', hr, ha, he.1, he.2, (reach_flags_owned hr).2.2.1 _ f' ha 3 he.1 he.2⟩

/-- Thread 0 exchanges `/1/3` and `/2/4`. It has found the first name when thread 1 removes the
second entry and renames the first to `/2/4`; it finds the same host again, takes its flag once,
and sees that the first top is gone. After it has cleared the flag for the first name, thread 1
takes it to move the entry to `/1/5`. -/
def exchangeMeetsRename : List (Act ℕ) :=
  Act.op 1 (.add [1] 0) 6 ++ Act.op 1 (.add [2] 0) 6 ++ Act.op 1 (.addFile [1, 3] 0) 7 ++
    Act.op 1 (.addFile [2, 4] 0) 7 ++ Act.op 0 (.exchange [1, 3] [2, 4]) 7 ++
    Act.op 1 (.unlink [2, 4]) 5 ++ Act.op 1 (.rename [1, 3] [2, 4]) 21 ++ Act.steps 0 7 ++
    Act.op 1 (.rename [2, 4] [1, 5]) 10

/-- The clear for the second name takes thread 1's flag while thread 1 owns the move. -/
theorem exchangeMeetsRename_clears : ∃ f f' : Flagged ℕ,
    Reach (Flagged.act .mark) (fun _ _ => True) (Flagged.init (fun _ _ => 0) 0) f ∧
      f.act .mark (.step 0 .ok) = some f' ∧ f.setBy 3 = some 1 ∧ f.s.d.flags 3 = true ∧
      f'.s.d.flags 3 = false ∧ 3 ∈ (f'.s.pc 1).owns f'.s.d := by
  have he : ((exec (Flagged.act .mark) (Flagged.init (fun _ _ => 0) 0) exchangeMeetsRename).bind
      fun f => (f.act .mark (.step 0 .ok)).map fun f' => (f.setBy 3, f.s.d.flags 3, f'.s.d.flags 3,
        decide (3 ∈ (f'.s.pc 1).owns f'.s.d))) = some (some 1, true, false, true) := by
    decide +kernel
  obtain ⟨f, hf, he⟩ := bind_eq_some_iff.mp he
  obtain ⟨f', ha, he⟩ := map_eq_some_iff.mp he
  simp only [Prod.mk.injEq, decide_eq_true_eq] at he
  exact ⟨f, f', reach_exec hf, ha, he⟩

end TrieBenchmark.Txn
