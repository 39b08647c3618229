import TrieBenchmark.Bucketlock.Alive
import TrieBenchmark.Bucketlock.DeleteLocks

/-!
The reads of `entry_alive` against the stores of `fold`. A fold commits with both heads of the
shell's name locked and resets the host's `d_top` afterwards, before it drops them; an add takes
`entry_alive` apart into its three reads. Every other section is one step, and waits for the
heads that a fold in between still holds.
-/

namespace TrieBenchmark.Bucketlock

open Option Function Run

variable {Name : Type}

def DCache.heads (d : DCache Name) : Pc Name → List Head
  | .addLock parent name _ _ _ => [.bucket (d.bucketOf parent name), .child parent]
  | .instLock parent name _ _ => [.bucket (d.bucketOf parent name)]
  | .delLock parent name isdirLocked _ =>
    .bucket (d.bucketOf parent name) :: (isdirLocked.map Head.child).toList
  | .unlLock parent name top => [.bucket (d.bucketOf parent name), .child parent] ++
      if (d.dentry (d.hostOf top)).isdir then [.child (d.hostOf top)] else []
  | .stkLock m _ => [.bucket (d.bucketOf m.fromParent m.fromName), .child m.fromParent,
      .bucket (d.bucketOf m.newParent m.newName), .child m.newParent]
  | .xchLock x _ _ => [.bucket (d.bucketOf x.pa x.na), .bucket (d.bucketOf x.pb x.nb),
      .child x.pa, .child x.pb]
  | .evLock a => [.bucket (d.bucket a), .child (d.dentry a).iparent, .child a]
  | .fldLock n => [.bucket (d.bucket n), .child (d.dentry n).iparent]
  | _ => []

/-- How far an add has come under its locks: the test of the parent's sign, then the reads of
`entry_alive`: `d_top`, the mark of the top it names, and `d_top` again. -/
inductive Probe where
  | sign
  | top
  | mark (t : Option ℕ)
  | again (t : Option ℕ)
  deriving DecidableEq, Repr

structure FineSys (Name : Type) where
  s : Sys Name
  /-- The folds that have committed and not reset `d_top` yet: thread and shell. -/
  late : List (ℕ × ℕ)
  probe : ℕ → Probe
  /-- The hosts whose entry an unlink or an eviction has removed. -/
  gone : List ℕ

inductive FineAct (Name : Type) where
  | sys (a : Act Name)
  | reset (t : ℕ)
  deriving DecidableEq, Repr

def DCache.removes (d : DCache Name) : Pc Name → Option ℕ
  | .unlLock _ _ top => match (d.unlinkLocked top).1 with
    | .done _ => some (d.hostOf top)
    | _ => none
  | .evLock a => match (d.evictLocked a).1 with
    | none => some (d.hostOf a)
    | some _ => none
  | _ => none

namespace FineSys

def init (bucketOf : ℕ → Name → ℕ) (rootname : Name) : FineSys Name :=
  ⟨.init bucketOf rootname, [], fun _ => .sign, []⟩

variable (x : FineSys Name)

/-- A fold of the host's entry is between its commit and its reset of `d_top`. -/
def Late (host : ℕ) : Prop :=
  ∃ l ∈ x.late, x.s.d.hostOf l.2 = host

instance (host : ℕ) : Decidable (x.Late host) :=
  inferInstanceAs (Decidable (∃ l ∈ x.late, _))

def topWord (host : ℕ) : Option ℕ :=
  match x.late.find? fun l => x.s.d.hostOf l.2 = host with
  | some l => some l.2
  | none => (x.s.d.dentry host).top

def free (pc : Pc Name) : Bool :=
  x.late.all fun l => (x.s.d.heads pc).all (· ∉ x.s.d.heads (.fldLock l.2))

def opens (t : ℕ) (oom : Bool) : List (ℕ × ℕ) :=
  match x.s.pc t with
  | .fldLock n => if x.s.d.topUnhashed n || oom then [] else [(t, n)]
  | _ => []

def quit (t : ℕ) (e : Errno) : FineSys Name :=
  { x with
    s := ⟨x.s.d, x.s.rcuAtStep t (.ret (some e)), update x.s.pc t (.ret (some e))⟩
    probe := update x.probe t .sign }

def setProbe (t : ℕ) (p : Probe) : FineSys Name :=
  { x with probe := update x.probe t p }

variable [DecidableEq Name]

/-- A step of `dc_add_typed` under its locks, up to the end of `entry_alive`; what follows an
answer 1 is one step with the read that gave it. -/
def addStep (t parent : ℕ) (oom : Bool) : Option (FineSys Name) :=
  match x.probe t with
  | .sign =>
    if !x.free (x.s.pc t) then none
    else if !x.s.d.isPositive parent then some (x.quit t .ENOENT)
    else some (x.setProbe t .top)
  | .top => some (x.setProbe t (.mark (x.topWord parent)))
  | .mark top =>
    if x.s.d.topUnhashed (top.getD parent) then some (x.setProbe t (.again top))
    else (x.s.act (.step t oom)).map fun s => { x.setProbe t .sign with s := s }
  | .again top =>
    if x.topWord parent = top then some (x.quit t .ENOENT) else some (x.setProbe t .top)

def step (t : ℕ) (oom : Bool) : Option (FineSys Name) :=
  match (x.s.pc t).addDir with
  | some parent => x.addStep t parent oom
  | none =>
    if !x.free (x.s.pc t) then none
    else (x.s.act (.step t oom)).map fun s =>
      { x with
        s := s
        late := x.opens t oom ++ x.late
        gone := (x.s.d.removes (x.s.pc t)).toList ++ x.gone }

def call (t : ℕ) (c : Call Name) : Option (FineSys Name) :=
  match c with
  | .evict a =>
    if (x.topWord a).isSome || (x.s.d.dentry a).host.isSome then some x
    else ((x.s.act (.call t (.evict a))).bind fun s => s.act (.step t false)).map fun s =>
      { x with s := s }
  | c => (x.s.act (.call t c)).map fun s => { x with s := s }

def act (x : FineSys Name) : FineAct Name → Option (FineSys Name)
  | .sys a =>
    if a.thread ∈ x.late.map Prod.fst then none
    else match a with
      | .call t c => x.call t c
      | .step t oom => x.step t oom
  | .reset t =>
    if t ∈ x.late.map Prod.fst then some { x with late := x.late.filter (·.1 ≠ t) } else none

/-- No fold of the parent's entry is between its commit and its reset of `d_top` when
`entry_alive` reads `d_top` again; and an exchange given one name twice finds one entry. -/
def Steady (x : FineSys Name) : FineAct Name → Prop
  | .sys (.step t _) => (x.s.pc t).SameTwice x.s.d ∧
      match x.probe t, (x.s.pc t).addDir with
      | .again _, some parent => ¬ x.Late parent
      | _, _ => True
  | _ => True

instance (x : FineSys Name) (a : FineAct Name) : Decidable (x.Steady a) := by
  unfold Steady
  split
  · refine @instDecidableAnd _ _ _ ?_
    split <;> infer_instance
  · infer_instance

end FineSys

/-! What takes an entry out of the index. -/

section Removal

variable {d : DCache Name} {S : Set ℕ} {pc : Pc Name} {top : ℕ} {oom : Bool}

theorem HashOk.delLocked_marked (hI : HashOk d) (ht : d.hashed top) :
    (d.delLocked top).topUnhashed top = true :=
  (hI.del_edit ht).left top (List.mem_singleton_self top)

theorem HashOk.delLocked_inj (hI : HashOk d) {top' : ℕ} (ht : d.hashed top) (ht' : d.hashed top')
    (he : d.delLocked top' = d.delLocked top) : top' = top := by
  by_contra hne
  have hm := hI.delLocked_marked ht
  rw [← he, (hI.del_edit ht').mark top (by simpa using Ne.symm hne) (by simp), hI.not_marked ht] at hm
  cases hm

variable [DecidableEq Name]

theorem removes_of_delLocked (hI : HashOk d) (hS : Settled d S) (hP : PcOk d S pc)
    (ht : d.hashed top) (hdir : (d.dentry (d.hostOf top)).isdir = true)
    (he : (stepPc d pc oom).1 = d.delLocked top) : d.removes pc = some (d.hostOf top) := by
  have hm := hI.not_marked ht
  -- whatever leaves the mark of the top, or allocates, is no deletion of it
  have hmark : (stepPc d pc oom).1.topUnhashed top = d.topUnhashed top → False := fun h => by
    rw [he, hI.delLocked_marked ht, hm] at h
    cases h
  have hfresh : d.fresh < (stepPc d pc oom).1.fresh → False := fun h => by
    rw [he] at h
    exact Nat.lt_irrefl _ h
  by_cases hr : pc.reads = true
  · exact (hmark (by rw [stepPc_reads hr])).elim
  cases pc with
  | addLock parent name id isdir positive =>
    rcases d.addLocked_cases parent name id isdir positive with ⟨e, hl⟩ | ⟨-, -, -, hl⟩
    · exact (hmark (by simp only [stepPc, hl])).elim
    · exact (hfresh (by simp only [stepPc, hl]; exact Nat.lt_succ_self _)).elim
  | instLock _ _ id top' =>
    refine (hmark ?_).elim
    simp only [stepPc]
    split_ifs
    · rfl
    · rcases d.setNegative_cases (d.hostOf top') false id with hl | ⟨id', hl⟩
      · rw [hl]
      · rw [hl]
        rfl
  | delLock _ _ _ top' =>
    refine (hmark ?_).elim
    simp only [stepPc]
    split_ifs
    · rfl
    · rfl
    · rfl
    · rcases d.setNegative_cases (d.hostOf top') true 0 with hl | ⟨id', hl⟩
      · rw [hl]
      · rw [hl]
        rfl
  | unlLock parent name top' =>
    have hd : (stepPc d (.unlLock parent name top') oom).1 = (d.unlinkLocked top').2 := by
      simp only [stepPc]
      split <;> simp_all
    rcases d.unlinkLocked_cases top' with hl | ⟨hm', hk, hl⟩
    · exact (hmark (by rw [hd, hl])).elim
    · obtain rfl := hI.delLocked_inj ht (hS.hashed hP hm') (by rw [← hl, ← hd, he])
      simp [DCache.removes, DCache.unlinkLocked, hm', hk]
  | stkLock m top' =>
    simp only [stepPc] at hmark hfresh
    rcases d.stackLocked_cases m top' oom with ⟨o, -, hl⟩ | ⟨-, -, d₁, hc, hl | hl⟩ <;>
      rw [hl] at hmark hfresh
    · exact (hmark rfl).elim
    · have hC := DCache.destClaimLocked_claimed hI hc
      refine (hmark ?_).elim
      rw [hm, (hC.hashOk hI).not_marked (hC.hashed_of_dir hI ht hdir)]
    · have hC := DCache.destClaimLocked_claimed hI hc
      refine (hfresh ?_).elim
      rw [DCache.stackCommit_fresh, (hC.spec hI).2.1]
      exact Nat.lt_succ_self _
  | xchLock x topa topb =>
    simp only [stepPc] at hmark hfresh
    rcases d.exchangeLocked_cases x topa topb oom with ⟨o, -, hl⟩ | ⟨-, -, hl⟩ <;>
      rw [hl] at hmark hfresh
    · exact (hmark rfl).elim
    · refine (hfresh ?_).elim
      rw [DCache.exchangeCommit_fresh]
      omega
  | evLock a =>
    obtain ⟨hlt, hs, hroot⟩ := hP
    simp only [stepPc] at hmark he
    rcases d.evictLocked_cases a with hl | ⟨hm', hk, htop, hl⟩
    · exact (hmark (by rw [hl])).elim
    · have ha : d.hashed a := (hI.marked a hlt hroot (.inr htop)).resolve_right (by simp [hm'])
      obtain rfl := hI.delLocked_inj ht ha (by rw [← hl, he])
      simp [DCache.removes, DCache.evictLocked, hm', hk, htop]
  | fldLock n =>
    simp only [stepPc, DCache.foldLocked_eq] at hmark he
    split_ifs at hmark he with hn ho
    · exact (hmark rfl).elim
    · refine (hmark (foldScratch_marked_of_ne ?_)).elim
      rintro rfl
      exact hI.host_not_hashed (hI.hashed_of_shell hP (by simpa using hn)) hP.2 ht
    · have hn := hI.hashed_of_shell hP (by simpa using hn)
      have hnew := congrArg (fun d' => (d'.dentry (d.hostOf n)).top) he
      have hold : (d.dentry (d.hostOf n)).top = some n := by
        rw [hI.top n hn, DCache.dtopVal, if_neg]
        rintro hself
        exact hI.host_not_hashed hn hP.2 (hself ▸ hn)
      rw [foldCommit_dentry_host] at hnew
      exact absurd (hnew.trans hold) (by simp)
  | _ =>
    first
    | exact absurd rfl hr
    | exact (hmark rfl).elim
    | (refine (hmark ?_).elim; simp only [stepPc]; split_ifs <;> rfl)

end Removal

/-! What an add knows between its reads. -/

section Reads

variable {d d' : DCache Name} {S S' : Set ℕ} {C : DCache Name → Insertion Name → Prop}
  {folded : Option ℕ} {parent : ℕ}

def Probe.Ok (d : DCache Name) (S : Set ℕ) (parent : ℕ) : Probe → Prop
  | .mark none => parent = root ∨ parent ∈ S ∨ ¬ d.alive parent
  | .mark (some n) => IsShell d n
  | .again none => parent ∈ S ∧ d.topUnhashed parent = true ∨ ¬ d.alive parent
  | .again (some n) => IsShell d n ∧ d.topUnhashed n = true
  | _ => True

/-- A shell that was found marked stays so, and so does a host that the add can have met: its
shell is not folded before the add has ended. -/
theorem Probe.Ok.step {p : Probe} (hp : p.Ok d S parent) (hE : Effect C d folded d')
    (hI : HashOk d) (hf : Spares d folded S) (hlt : parent < d.fresh) (hsub : S ⊆ S') :
    p.Ok d' S' parent := by
  have hH := hE.hashStep hI
  have hdead : ¬ d.alive parent → ¬ d'.alive parent := mt (hE.alive_of_alive hI hlt)
  cases p with
  | mark t =>
    cases t with
    | none => exact hp.imp_right (Or.imp (fun h => hsub h) hdead)
    | some => exact IsShell.step hH hp
  | again t =>
    cases t with
    | none =>
      refine hp.imp (fun h => ⟨hsub h.1, ?_⟩) hdead
      exact hH.dead parent hlt (hf parent h.1) h.2
    | some n =>
      obtain ⟨hn, hm⟩ := hp
      refine ⟨hn.step hH, hH.dead n hn.1 (fun k hk he => ?_) hm⟩
      have hhost := (hI.hostOf_host (hI.alloc k (hE.of_folded k hk).1).1).2
      rw [← he, hn.2] at hhost
      cases hhost
  | _ => trivial

theorem HashOk.not_alive (hI : HashOk d)
    (h : d.topUnhashed ((d.dentry parent).top.getD parent) = true) : ¬ d.alive parent := by
  intro ha
  have halive := hI.entryAlive_of_alive ha
  rw [DCache.entryAlive, h] at halive
  cases halive

theorem Probe.Ok.read (hI : HashOk d) (hcover : ∀ a, d.hashed a → a ∈ S)
    (hparent : parent ∈ d.hosts) : Probe.Ok d S parent (.mark (d.dentry parent).top) := by
  cases htop : (d.dentry parent).top with
  | none =>
    by_cases hroot : parent = root
    · exact .inl hroot
    rcases hI.marked parent hparent.1 hroot (.inr htop) with hh | hm
    · exact .inr (.inl (hcover parent hh))
    · exact .inr (.inr (hI.not_alive (by simpa [htop] using hm)))
  | some n =>
    obtain ⟨hn, hs, -⟩ := hI.topShell parent hparent.1 hparent.2 n htop
    exact ⟨hn, hs⟩

theorem Probe.Ok.marked {t : Option ℕ} (hI : HashOk d) (hp : (Probe.mark t).Ok d S parent)
    (hm : d.topUnhashed (t.getD parent) = true) : (Probe.again t).Ok d S parent := by
  cases t with
  | none =>
    rcases hp with rfl | hS | hdead
    · have hroot := hI.rootHost.2.2.2
      rw [show d.topUnhashed root = true from hm] at hroot
      cases hroot
    · exact .inl ⟨hS, hm⟩
    · exact .inr hdead
  | some => exact ⟨hp, hm⟩

theorem Probe.Ok.dead {t : Option ℕ} (hI : HashOk d) (hp : (Probe.again t).Ok d S parent)
    (htop : (d.dentry parent).top = t) : ¬ d.alive parent := by
  cases t with
  | none =>
    rcases hp with ⟨-, hm⟩ | hdead
    · exact hI.not_alive (by simpa [htop] using hm)
    · exact hdead
  | some => exact hI.not_alive (by simpa [htop] using hp.2)

end Reads

variable {x x' : FineSys Name} {pc : Pc Name} {d : DCache Name}

theorem FineSys.topWord_eq_top {host : ℕ} (h : ¬ x.Late host) :
    x.topWord host = (x.s.d.dentry host).top := by
  have hnone : x.late.find? (fun l => x.s.d.hostOf l.2 = host) = none := by
    rw [List.find?_eq_none]
    intro l hl he
    exact h ⟨l, hl, of_decide_eq_true he⟩
  rw [topWord, hnone]

theorem FineSys.topWord_of_late {host : ℕ} (h : x.Late host) :
    ∃ l ∈ x.late, x.topWord host = some l.2 := by
  obtain ⟨l, hl, he⟩ := h
  cases hfind : x.late.find? fun l => x.s.d.hostOf l.2 = host with
  | none => exact absurd (decide_eq_true he) (List.find?_eq_none.mp hfind l hl)
  | some l' => exact ⟨l', List.mem_of_find?_eq_some hfind, by rw [topWord, hfind]⟩

structure FineInv (x : FineSys Name) : Prop where
  reads : ∃ S, Inv x.s S ∧ ∀ t, ∀ p ∈ (x.s.pc t).addDir, (x.probe t).Ok x.s.d (S t) p
  rest : ∀ t, (x.s.pc t).addDir = none → x.probe t = .sign
  tree : ∃ F, TreeInv x.s F
  places : Places x.s
  dirs : ∀ t, ∀ p ∈ (x.s.pc t).addDir, (x.s.d.dentry p).isdir = true
  late : ∀ l ∈ x.late, IsShell x.s.d l.2
  gone : ∀ h ∈ x.s.d.hosts, (x.s.d.dentry h).isdir = true → x.s.d.alive h ∨ h ∈ x.gone

theorem Pc.addDir_of_not_busy (h : pc.busy = false) : pc.addDir = none := by
  cases pc <;> first | rfl | cases h

theorem Pc.of_addDir {p : ℕ} (h : pc.addDir = some p) :
    pc.busy = true ∧ d.removes pc = none := by
  cases pc <;> first | exact ⟨rfl, rfl⟩ | cases h

variable [DecidableEq Name] {oom : Bool} {t parent : ℕ}

omit [DecidableEq Name] in
theorem Starts.addDir {c : Call Name} {pc : Pc Name} (h : Starts c pc) : pc.addDir = none := by
  cases h <;> rfl

namespace FineInv

omit [DecidableEq Name] in
theorem init (bucketOf : ℕ → Name → ℕ) (rootname : Name) :
    FineInv (FineSys.init bucketOf rootname) := by
  refine ⟨⟨fun _ => ∅, Inv.init bucketOf rootname _, ?_⟩, fun _ _ => rfl,
    ⟨_, TreeInv.init bucketOf rootname⟩, Places.init bucketOf rootname, ?_, ?_, ?_⟩
  · intro t p hp
    cases hp
  · intro t p hp
    cases hp
  · intro l hl
    cases hl
  · intro h hh _
    exact .inl (.inl (Nat.lt_one_iff.mp hh.1))

theorem stays_alive {s : Sys Name} {S : ℕ → Set ℕ} (hV : Inv s S) {t h : ℕ}
    (hb : (s.pc t).busy = true) (ha : s.d.alive h) (hdir : (s.d.dentry h).isdir = true) :
    (stepPc s.d (s.pc t) oom).1.alive h ∨ s.d.removes (s.pc t) = some h := by
  obtain ⟨folded, hE, -⟩ := hV.effect (C := fun _ _ => True) oom hb (by simp) (by simp)
  rcases hE.stays_alive hV.hash ha hdir with h | ⟨top, ht, rfl, -, he⟩
  · exact .inl h
  · exact .inr (removes_of_delLocked hV.hash (hV.seen t hb).settled (hV.pcOk t) ht hdir he)

theorem sys_call (hx : FineInv x) {c : Call Name} {s' : Sys Name}
    (ha : x.s.act (.call t c) = some s') : FineInv { x with s := s' } := by
  obtain ⟨⟨S, hV, hreads⟩, hrest, ⟨F, hT⟩, hP, hdirs, hlate, hgone⟩ := hx
  have hV' := hV.act (show x.s.SameTwice (.call t c) from trivial) ha
  have hP' := hP.act hV hT ha
  have hT' := hT.act ha
  obtain ⟨hidle, -, rfl⟩ := Sys.of_act_call ha
  -- the thread was not in an add, and is not under the locks of one now
  have hold : ∀ u, ∀ p ∈ (update x.s.pc t (callStart c) u).addDir,
      u ≠ t ∧ p ∈ (x.s.pc u).addDir := by
    intro u p hp
    rcases eq_or_ne u t with rfl | hne
    · simp [(callStart_starts _).addDir] at hp
    · exact ⟨hne, by simpa [hne] using hp⟩
  refine ⟨⟨_, hV', fun u p hp => ?_⟩, fun u hu => ?_, hT', hP', fun u p hp => ?_, hlate, hgone⟩
  · obtain ⟨hne, hp⟩ := hold u p hp
    simpa [Sys.meet, hne] using hreads u p hp
  · rcases eq_or_ne u t with rfl | hne
    · exact hrest u (Pc.addDir_of_not_busy hidle)
    · exact hrest u (by simpa [hne] using hu)
  · exact hdirs u p (hold u p hp).2

theorem sys_step (hx : FineInv x) {s' : Sys Name} {late : List (ℕ × ℕ)}
    {gone : List ℕ} (hok : (x.s.pc t).SameTwice x.s.d) (ha : x.s.act (.step t oom) = some s')
    (hlate : ∀ l ∈ late, IsShell x.s.d l.2)
    (hgone : ∀ h, h ∈ x.gone ∨ x.s.d.removes (x.s.pc t) = some h → h ∈ gone) :
    FineInv ⟨s', late, update x.probe t .sign, gone⟩ := by
  obtain ⟨⟨S, hV, hreads⟩, hrest, ⟨F, hT⟩, hP, hdirs, -, hgone₀⟩ := hx
  have hV' := hV.act (show x.s.SameTwice (.step t oom) from hok) ha
  have hP' := hP.act hV hT ha
  have hT' := hT.act ha
  obtain ⟨hb, rfl⟩ := Sys.of_act_step ha
  obtain ⟨folded, hE, hf⟩ := hV.effect (C := fun _ _ => True) oom hb (by simp) (by simp)
  have hH := hE.hashStep hV.hash
  refine ⟨⟨_, hV', fun u p hp => ?_⟩, fun u hu => ?_, hT', hP', fun u p hp => ?_, fun l hl => ?_,
    fun h hh hdir => ?_⟩
  · rcases eq_or_ne u t with rfl | hne
    · simp only [update_self]
      trivial
    · have hp : p ∈ (x.s.pc u).addDir := by simpa [hne] using hp
      have hbusy := (Pc.of_addDir (d := x.s.d) hp).1
      simp only [update_of_ne hne]
      refine (hreads u p hp).step hE hV.hash ?_ (hP.addDir_mem hp).1 Set.subset_union_left
      exact (hV.seen u hbusy).spares fun n hn => ⟨(hf n hn).1, (hf n hn).2.1, (hf n hn).2.2 u⟩
  · rcases eq_or_ne u t with rfl | hne
    · simp
    · simpa [hne] using hrest u (by simpa [hne] using hu)
  · rcases eq_or_ne u t with rfl | hne
    · have hp : (stepPc x.s.d (x.s.pc u) oom).2.addDir = some p := by simpa using hp
      have hlt := ((hP.step_held hV hT u oom).dirs p (Pc.into_mem_dirs (Pc.into_of_addDir hp))).1
      exact (hE.state_eq hV.hash hlt).1.trans ((stepPc_successor _ _ _).isdir_addDir hp)
    · have hp : p ∈ (x.s.pc u).addDir := by simpa [hne] using hp
      exact (hE.state_eq hV.hash (hP.addDir_mem hp).1).1.trans (hdirs u p hp)
  · exact (hlate l hl).step hH
  · rcases Nat.lt_or_ge h x.s.d.fresh with hlt | hge
    · have hdir₀ := (hE.state_eq hV.hash hlt).1.symm.trans hdir
      rcases hgone₀ h ⟨hlt, (hH.kind h hlt).1.symm.trans hh.2⟩ hdir₀ with halive | hg
      · exact (stays_alive hV hb halive hdir₀).imp_right fun hr => hgone h (.inr hr)
      · exact .inr (hgone h (.inl hg))
    · exact .inl (.inr ⟨h, hE.new_hashed hV.hash hge hh.1, DCache.hostOf_of_host hh.2⟩)

theorem sys_step_rest (hx : FineInv x) {s' : Sys Name} {late : List (ℕ × ℕ)}
    {gone : List ℕ} (hrest : (x.s.pc t).addDir = none) (hok : (x.s.pc t).SameTwice x.s.d)
    (ha : x.s.act (.step t oom) = some s') (hlate : ∀ l ∈ late, IsShell x.s.d l.2)
    (hgone : ∀ h, h ∈ x.gone ∨ x.s.d.removes (x.s.pc t) = some h → h ∈ gone) :
    FineInv ⟨s', late, x.probe, gone⟩ := by
  have h := hx.sys_step hok ha hlate hgone
  rwa [← hx.rest t hrest, update_eq_self] at h

omit [DecidableEq Name] in
theorem opens (hx : FineInv x) {l : ℕ × ℕ} (hl : l ∈ x.opens t oom) :
    IsShell x.s.d l.2 := by
  obtain ⟨S, hV, -⟩ := hx.reads
  have hP := hV.pcOk t
  unfold FineSys.opens at hl
  split at hl
  · rename_i n hpc
    split_ifs at hl
    · cases hl
    · rw [hpc] at hP
      rw [List.mem_singleton.mp hl]
      exact hP
  · cases hl

theorem act_quit (hpc : x.s.pc t = pc) {parent : ℕ} (hadd : pc.addDir = some parent)
    (hno : x.s.d.isPositive parent = false ∨ x.s.d.entryAlive parent = false) :
    x.s.act (.step t false) = some (x.quit t .ENOENT).s := by
  cases pc with
  | addLock p name id isdir positive =>
    obtain rfl := some.inj hadd
    have hl : x.s.d.addLocked p name id isdir positive = (some .ENOENT, x.s.d) := by
      unfold DCache.addLocked
      rcases hno with h | h <;> simp [h]
    simp [Sys.act, hpc, Pc.busy, stepPc, hl, FineSys.quit]
  | _ => cases hadd

omit [DecidableEq Name] in
theorem denied (hx : FineInv x) {top : Option ℕ}
    (hadd : (x.s.pc t).addDir = some parent) (hprobe : x.probe t = .again top)
    (hlate : ¬ x.Late parent) (hw : x.topWord parent = top) :
    ¬ x.s.d.alive parent ∧ parent ∈ x.gone := by
  obtain ⟨S, hV, hreads⟩ := hx.reads
  rw [FineSys.topWord_eq_top hlate] at hw
  have hOk := hreads t parent hadd
  rw [hprobe] at hOk
  have hdead := hOk.dead hV.hash hw
  refine ⟨hdead, ?_⟩
  exact (hx.gone parent (hx.places.addDir_mem hadd) (hx.dirs t parent hadd)).resolve_left hdead

omit [DecidableEq Name] in
theorem setProbe (hx : FineInv x) (hadd : (x.s.pc t).addDir = some parent)
    {p : Probe} (hp : ∀ S, Inv x.s S → (x.probe t).Ok x.s.d (S t) parent → p.Ok x.s.d (S t) parent) :
    FineInv (x.setProbe t p) := by
  obtain ⟨⟨S, hV, hreads⟩, hrest, hT, hP, hdirs, hlate, hgone⟩ := hx
  refine ⟨⟨S, hV, fun u q hq => ?_⟩, fun u hu => ?_, hT, hP, hdirs, hlate, hgone⟩
  · rcases eq_or_ne u t with rfl | hne
    · obtain rfl := some.inj (hadd.symm.trans hq)
      simpa [FineSys.setProbe] using hp S hV (hreads u _ hq)
    · simpa [FineSys.setProbe, hne] using hreads u q hq
  · rcases eq_or_ne u t with rfl | hne
    · cases hadd.symm.trans hu
    · simpa [FineSys.setProbe, hne] using hrest u hu

theorem quit (hx : FineInv x) (hadd : (x.s.pc t).addDir = some parent)
    (hok : (x.s.pc t).SameTwice x.s.d)
    (hno : x.s.d.isPositive parent = false ∨ x.s.d.entryAlive parent = false) :
    FineInv (x.quit t .ENOENT) :=
  hx.sys_step hok (act_quit rfl hadd hno) hx.late fun h hh => by
    simpa [(Pc.of_addDir hadd).2] using hh

theorem addStep (hx : FineInv x)
    (hadd : (x.s.pc t).addDir = some parent) (hok : x.Steady (.sys (.step t oom)))
    (ha : x.addStep t parent oom = some x') : FineInv x' := by
  unfold FineSys.addStep at ha
  cases hprobe : x.probe t with
  | sign =>
    rw [hprobe] at ha
    dsimp only at ha
    split_ifs at ha with hfree hpos
    · obtain rfl := some.inj ha
      exact hx.quit hadd hok.1 (.inl (by simpa using hpos))
    · obtain rfl := some.inj ha
      exact hx.setProbe hadd fun _ _ _ => trivial
  | top =>
    rw [hprobe] at ha
    obtain rfl := some.inj ha
    refine hx.setProbe hadd fun S hV _ => ?_
    by_cases hl : x.Late parent
    · obtain ⟨l, hl, hw⟩ := FineSys.topWord_of_late hl
      rw [hw]
      exact hx.late l hl
    · rw [FineSys.topWord_eq_top hl]
      exact .read hV.hash (hV.seen t (Pc.of_addDir (d := x.s.d) hadd).1).cover
        (hx.places.addDir_mem hadd)
  | mark =>
    rw [hprobe] at ha
    dsimp only at ha
    split_ifs at ha with hm
    · obtain rfl := some.inj ha
      refine hx.setProbe hadd fun S hV hOk => ?_
      rw [hprobe] at hOk
      exact hOk.marked hV.hash hm
    · obtain ⟨s', hs', rfl⟩ := map_eq_some_iff.mp ha
      exact hx.sys_step hok.1 hs' hx.late fun h hh => by
        simpa [(Pc.of_addDir hadd).2, FineSys.setProbe] using hh
  | again =>
    rw [hprobe] at ha
    dsimp only at ha
    split_ifs at ha with hw
    · obtain rfl := some.inj ha
      have hlate : ¬ x.Late parent := by simpa [FineSys.Steady, hprobe, hadd] using hok.2
      obtain ⟨hdead, -⟩ := hx.denied hadd hprobe hlate hw
      obtain ⟨S, hV, -⟩ := hx.reads
      refine hx.quit hadd hok.1 (.inr ?_)
      by_contra halive
      exact hdead (hV.hash.alive_of_entryAlive (hx.places.addDir_mem hadd) (by simpa using halive))
    · obtain rfl := some.inj ha
      exact hx.setProbe hadd fun _ _ _ => trivial

theorem step (hx : FineInv x) (hok : x.Steady (.sys (.step t oom)))
    (ha : x.step t oom = some x') : FineInv x' := by
  unfold FineSys.step at ha
  cases hadd : (x.s.pc t).addDir with
  | some =>
    rw [hadd] at ha
    exact hx.addStep hadd hok ha
  | none =>
    rw [hadd] at ha
    dsimp only at ha
    split_ifs at ha
    obtain ⟨s', hs', rfl⟩ := map_eq_some_iff.mp ha
    refine hx.sys_step_rest hadd hok.1 hs' (fun l hl => ?_) fun h hh => ?_
    · rcases List.mem_append.mp hl with hl | hl
      · exact hx.opens hl
      · exact hx.late l hl
    · rw [List.mem_append, mem_toList]
      exact hh.symm

theorem call (hx : FineInv x) {c : Call Name} (ha : x.call t c = some x') :
    FineInv x' := by
  unfold FineSys.call at ha
  cases c with
  | evict a =>
    dsimp only at ha
    split_ifs at ha
    · obtain rfl := some.inj ha
      exact hx
    · obtain ⟨s₂, hs₂, rfl⟩ := map_eq_some_iff.mp ha
      obtain ⟨s₁, hs₁, hs₂⟩ := bind_eq_some_iff.mp hs₂
      have hpc : s₁.pc t = .evTop a := (Sys.act_call hs₁).2.1
      have hx₁ := hx.sys_call hs₁
      refine hx₁.sys_step_rest ?_ ?_ hs₂ hx₁.late fun h hh => ?_
      · exact congrArg Pc.addDir hpc
      · show (s₁.pc t).SameTwice s₁.d
        rw [hpc]
        trivial
      · rw [show s₁.d.removes (s₁.pc t) = none by rw [hpc]; rfl] at hh
        simpa using hh
  | op | fold =>
    obtain ⟨s', hs', rfl⟩ := map_eq_some_iff.mp ha
    exact hx.sys_call hs'

theorem act (hx : FineInv x) {a : FineAct Name} (hok : x.Steady a) (ha : x.act a = some x') :
    FineInv x' := by
  cases a with
  | sys a =>
    simp only [FineSys.act] at ha
    split_ifs at ha
    cases a with
    | call => exact hx.call ha
    | step => exact hx.step hok ha
  | reset =>
    simp only [FineSys.act] at ha
    split_ifs at ha
    obtain rfl := some.inj ha
    obtain ⟨hreads, hrest, hT, hP, hdirs, hlate, hgone⟩ := hx
    exact ⟨hreads, hrest, hT, hP, hdirs, fun l hl => hlate l (List.mem_filter.mp hl).1, hgone⟩

theorem addLock_enoent {parent : ℕ}
    (hadd : pc.addDir = some parent) (hpc : (stepPc d pc oom).2 = .ret (some .ENOENT)) :
    d.isPositive parent = false ∨ d.entryAlive parent = false := by
  cases pc with
  | addLock =>
    obtain rfl := some.inj hadd
    simp only [stepPc, DCache.addLocked] at hpc
    split_ifs at hpc with hpos halive
    · exact .inl (by simpa using hpos)
    · exact .inr (by simpa using halive)
    · cases hpc
    · cases hpc
  | _ => cases hadd

theorem enoent (hx : FineInv x)
    (hadd : (x.s.pc t).addDir = some parent) (hok : x.Steady (.sys (.step t oom)))
    (ha : x.addStep t parent oom = some x') (hret : x'.s.pc t = .ret (some .ENOENT)) :
    x.s.d.isPositive parent = false ∨ parent ∈ x.gone := by
  -- a step that leaves the program counter under the locks returns nothing
  have hstay : ∀ p, (x.setProbe t p).s.pc t ≠ .ret (some .ENOENT) := fun p h => by
    rw [show x.s.pc t = .ret (some .ENOENT) from h] at hadd
    cases hadd
  unfold FineSys.addStep at ha
  cases hprobe : x.probe t with
  | sign =>
    rw [hprobe] at ha
    dsimp only at ha
    split_ifs at ha with hfree hpos
    · exact .inl (by simpa using hpos)
    · obtain rfl := some.inj ha
      exact absurd hret (hstay _)
  | top =>
    rw [hprobe] at ha
    obtain rfl := some.inj ha
    exact absurd hret (hstay _)
  | mark =>
    rw [hprobe] at ha
    dsimp only at ha
    split_ifs at ha with hm
    · obtain rfl := some.inj ha
      exact absurd hret (hstay _)
    · obtain ⟨s', hs', rfl⟩ := map_eq_some_iff.mp ha
      rw [Sys.act_step (Pc.of_addDir (d := x.s.d) hadd).1] at hs'
      obtain rfl := some.inj hs'
      have hpc : (stepPc x.s.d (x.s.pc t) oom).2 = .ret (some .ENOENT) := by simpa using hret
      refine (addLock_enoent hadd hpc).imp_right fun hno => ?_
      obtain ⟨S, hV, -⟩ := hx.reads
      refine (hx.gone parent (hx.places.addDir_mem hadd) (hx.dirs t parent hadd)).resolve_left ?_
      intro halive
      rw [hV.hash.entryAlive_of_alive halive] at hno
      cases hno
  | again =>
    rw [hprobe] at ha
    dsimp only at ha
    split_ifs at ha with hw
    · have hlate : ¬ x.Late parent := by simpa [FineSys.Steady, hprobe, hadd] using hok.2
      exact .inr (hx.denied hadd hprobe hlate hw).2
    · obtain rfl := some.inj ha
      exact absurd hret (hstay _)

end FineInv

/-- In a steady run `entry_alive` answers 0 only for a directory that an unlink or an eviction
has removed, and `dc_add` then returns `-ENOENT` for no other reason than that or a negative
parent. -/
theorem reach_entryAlive (bucketOf : ℕ → Name → ℕ) (rootname : Name)
    (hr : Reach FineSys.act FineSys.Steady (.init bucketOf rootname) x) {t parent : ℕ} {oom : Bool}
    (hadd : (x.s.pc t).addDir = some parent) (hok : x.Steady (.sys (.step t oom))) :
    (∀ top, x.probe t = .again top → x.topWord parent = top →
      ¬ x.s.d.alive parent ∧ parent ∈ x.gone) ∧
    ∀ x', x.act (.sys (.step t oom)) = some x' → x'.s.pc t = .ret (some .ENOENT) →
      x.s.d.isPositive parent = false ∨ parent ∈ x.gone := by
  have hx : FineInv x := hr.invariant (.init bucketOf rootname) fun _ _ _ h hok ha => h.act hok ha
  refine ⟨fun top hprobe hw => ?_, fun x' ha hret => ?_⟩
  · have hlate : ¬ x.Late parent := by simpa [FineSys.Steady, hprobe, hadd] using hok.2
    exact hx.denied hadd hprobe hlate hw
  · simp only [FineSys.act] at ha
    split_ifs at ha
    simp only [FineSys.step, hadd] at ha
    exact hx.enoent hadd hok ha hret

def FineAct.op (t : ℕ) (c : Call Name) (k : ℕ) : List (FineAct Name) :=
  (Act.call t c :: Act.steps t k).map .sys

def oneEach : FineSys ℕ :=
  .init (fun parent _ => parent) 0

def addBelowRemoved : List (FineAct ℕ) :=
  FineAct.op 1 (.op (.add [1] 5)) 5 ++ FineAct.op 0 (.op (.addFile [1, 2] 6)) 3 ++
    FineAct.op 1 (.op (.unlink [1])) 4 ++ (Act.steps 0 3).map .sys

theorem reach_entryAlive_unlink : ∃ x, Reach FineSys.act FineSys.Steady oneEach x ∧
    x.probe 0 = .again none ∧ 1 ∈ x.gone := by
  have he : (exec (guarded FineSys.act FineSys.Steady) oneEach addBelowRemoved).map
      (fun x => ((x.s.pc 0).addDir, x.probe 0, x.topWord 1,
        decide (x.Steady (.sys (.step 0 false))))) = some (some 1, .again none, none, true) := by
    rfl
  obtain ⟨x, hr, hx⟩ := reach_exec_map he
  simp only [Prod.mk.injEq, decide_eq_true_eq] at hx
  obtain ⟨hadd, hprobe, hw, hok⟩ := hx
  exact ⟨x, hr.of_guarded, hprobe,
    ((reach_entryAlive _ _ hr.of_guarded hadd hok).1 none hprobe hw).2⟩

/-- Thread 1 renames a directory, and thread 2 has committed its fold and not reset `d_top`
when thread 0 adds a file below it. -/
def addDuringFold : List (FineAct ℕ) :=
  FineAct.op 1 (.op (.add [1] 5)) 5 ++ FineAct.op 1 (.op (.rename [1] [2])) 9 ++
    FineAct.op 2 (.fold 2) 2 ++ FineAct.op 0 (.op (.addFile [2, 3] 6)) 7 ++ [.reset 2]

/-- The add is refused, and the directory was there all the time. -/
theorem addDuringFold_enoent : (exec FineSys.act oneEach addDuringFold).map
    (fun x => (x.s.pc 0, x.gone, x.s.d.childLookup root 2, x.s.d.isPositive 1)) =
    some (.ret (some .ENOENT), [], some 1, true) := by
  rfl

end TrieBenchmark.Bucketlock
