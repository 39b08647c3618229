import TrieBenchmark.Lib.Run
import Mathlib.Data.List.Nodup
import Mathlib.Logic.Function.Basic

/-!
The transacted index of the list benchmark (`BENCH_RANDOM_POS`). A cell is named by its allocation:
an operation is one read-side section, so no address that it has loaded is given out again before
its end. The stable cells are those below `LIST_SIZE`.
-/

namespace TrieBenchmark.Bench.RandomPos

open Run List
open Function (update update_apply)

def nextOf (l : List ℕ) (c : ℕ) : Option ℕ := (l.dropWhile (· ≠ c)).tail.head?

def prevOf (l : List ℕ) (c : ℕ) : Option ℕ := (l.takeWhile (· ≠ c)).getLast?

def insertAfter (a c : ℕ) : List ℕ → List ℕ
  | [] => []
  | x :: l => if x = a then x :: c :: l else x :: insertAfter a c l

theorem insertAfter_perm {a c : ℕ} {l : List ℕ} (ha : a ∈ l) : insertAfter a c l ~ c :: l := by
  induction l with
  | nil => cases ha
  | cons x l ih =>
    rw [insertAfter]
    split_ifs with hx
    · exact .swap ..
    · have ha' : a ∈ l := (mem_cons.mp ha).resolve_left (Ne.symm hx)
      exact ((ih ha').cons x).trans (.swap ..)

/-- `lf_write_random`, or one slot of `lf_reset_index`, which makes a single attempt. -/
inductive Mode where
  | write
  | reset
  deriving DecidableEq, Repr

/-- Where a thread is: the slot it drew, the cell, and the neighbours that its transaction has
recorded. -/
inductive Pc (nindex : ℕ) where
  | idle
  | load (m : Mode) (i : Fin nindex)
  | insertPrepare (i : Fin nindex) (fresh a : ℕ)
  | insertCommit (i : Fin nindex) (fresh a : ℕ) (succ : Option ℕ)
  | cellFree (i : Fin nindex) (fresh : ℕ)
  | delPrepare (m : Mode) (i : Fin nindex) (cur : ℕ)
  | delCommit (m : Mode) (i : Fin nindex) (cur : ℕ) (prev succ : Option ℕ)
  | cellReclaim (cur : ℕ)
  deriving DecidableEq, Repr

def Mode.again {nindex : ℕ} (i : Fin nindex) : Mode → Pc nindex
  | .write => .load .write i
  | .reset => .idle

structure Sys (nindex : ℕ) where
  list : List ℕ
  index : Fin nindex → Option ℕ
  /-- The next allocation. -/
  next : ℕ
  pc : ℕ → Pc nindex
  /-- The cells whose insert has committed. -/
  inserted : List ℕ
  /-- The cells whose removal has committed. -/
  removed : List ℕ
  freed : List ℕ
  reclaimed : List ℕ

inductive Act (nindex : ℕ) where
  | write (t : ℕ) (i : Fin nindex)
  | reset (t : ℕ) (i : Fin nindex)
  /-- The thread's next step; `a` is the anchor that an insert draws. -/
  | step (t a : ℕ)
  /-- The thread's prepare or commit fails. -/
  | fail (t : ℕ)
  deriving DecidableEq, Repr

variable {nindex listSize : ℕ} {s s' : Sys nindex} {t a c : ℕ} {i : Fin nindex}

namespace Sys

def init (listSize : ℕ) : Sys nindex :=
  ⟨range listSize, fun _ => none, listSize, fun _ => .idle, [], [], [], []⟩

def go (s : Sys nindex) (t : ℕ) (p : Pc nindex) : Sys nindex := { s with pc := update s.pc t p }

def step (listSize : ℕ) (s : Sys nindex) (t a : ℕ) : Option (Sys nindex) :=
  match s.pc t with
  | .idle => none
  | .load m i =>
    match s.index i, m with
    | some cur, m => some (s.go t (.delPrepare m i cur))
    | none, .reset => some (s.go t .idle)
    | none, .write =>
      if a < listSize then
        some { s.go t (.insertPrepare i s.next a) with next := s.next + 1 }
      else none
  | .insertPrepare i fresh a => some (s.go t (.insertCommit i fresh a (nextOf s.list a)))
  | .insertCommit i fresh a succ =>
    if nextOf s.list a = succ ∧ s.index i = none then
      some { s.go t .idle with
        list := insertAfter a fresh s.list
        index := update s.index i (some fresh)
        inserted := fresh :: s.inserted }
    else some (s.go t (.cellFree i fresh))
  | .cellFree i fresh => some { s.go t (.load .write i) with freed := fresh :: s.freed }
  | .delPrepare m i cur =>
    if cur ∈ s.list then
      some (s.go t (.delCommit m i cur (prevOf s.list cur) (nextOf s.list cur)))
    else some (s.go t (m.again i))
  | .delCommit m i cur prev succ =>
    if cur ∈ s.list ∧ prevOf s.list cur = prev ∧ nextOf s.list cur = succ ∧
        s.index i = some cur then
      some { s.go t (.cellReclaim cur) with
        list := s.list.erase cur
        index := update s.index i none
        removed := cur :: s.removed }
    else some (s.go t (m.again i))
  | .cellReclaim cur => some { s.go t .idle with reclaimed := cur :: s.reclaimed }

def fail (s : Sys nindex) (t : ℕ) : Option (Sys nindex) :=
  match s.pc t with
  | .insertPrepare i fresh _ | .insertCommit i fresh _ _ => some (s.go t (.cellFree i fresh))
  | .delPrepare m i _ | .delCommit m i _ _ _ => some (s.go t (m.again i))
  | _ => none

def act (listSize : ℕ) (s : Sys nindex) : Act nindex → Option (Sys nindex)
  | .write t i => if s.pc t = .idle then some (s.go t (.load .write i)) else none
  | .reset t i => if s.pc t = .idle then some (s.go t (.load .reset i)) else none
  | .step t a => s.step listSize t a
  | .fail t => s.fail t

end Sys

inductive Place (nindex : ℕ) where
  | unborn
  | held (t : ℕ)
  | listed (i : Fin nindex)
  | owed (t : ℕ)
  | reclaimed
  | freed
  deriving DecidableEq

namespace Place

@[grind =]
def inserted : Place nindex → Bool
  | listed _ | owed _ | reclaimed => true
  | _ => false

@[grind =]
def removed : Place nindex → Bool
  | owed _ | reclaimed => true
  | _ => false

end Place

namespace Pc

@[grind =]
def fresh : Pc nindex → Option ℕ
  | insertPrepare _ c _ | insertCommit _ c _ _ | cellFree _ c => some c
  | _ => none

@[grind =]
def owed : Pc nindex → Option ℕ
  | cellReclaim c => some c
  | _ => none

@[grind =]
def anchor : Pc nindex → Option ℕ
  | insertPrepare _ _ a | insertCommit _ _ a _ => some a
  | _ => none

end Pc

/-- Cell `c` is at place `p` of its life: so say the slots, the list, the threads and the logs. -/
structure At (listSize : ℕ) (s : Sys nindex) (c : ℕ) (p : Place nindex) : Prop where
  unborn : p = .unborn ↔ c < listSize ∨ s.next ≤ c
  held : ∀ t, (s.pc t).fresh = some c ↔ p = .held t
  listed : ∀ i, s.index i = some c ↔ p = .listed i
  owed : ∀ t, (s.pc t).owed = some c ↔ p = .owed t
  mem : c ∈ s.list ↔ c < listSize ∨ ∃ i, p = .listed i
  inserted : c ∈ s.inserted ↔ p.inserted
  removed : s.removed.count c = if p.removed then 1 else 0
  reclaimed : s.reclaimed.count c = if p = .reclaimed then 1 else 0
  freed : s.freed.count c = if p = .freed then 1 else 0

namespace At

variable {p : Place nindex}

theorem of_index (hp : At listSize s c p) (hi : s.index i = some c) :
    c ∈ s.list ∧ listSize ≤ c := by
  obtain rfl := (hp.listed i).mp hi
  refine ⟨hp.mem.mpr (.inr ⟨i, rfl⟩), Nat.le_of_not_lt fun hlt => ?_⟩
  cases hp.unborn.mpr (.inl hlt)

theorem named (hp : At listSize s c p) (hc : c ∈ s.list) (hle : listSize ≤ c) :
    ∃! i, s.index i = some c := by
  obtain ⟨i, rfl⟩ := (hp.mem.mp hc).resolve_left (Nat.not_lt.mpr hle)
  refine ⟨i, (hp.listed i).mpr rfl, fun j hj => ?_⟩
  cases (hp.listed j).mp hj
  rfl

theorem taken (hp : At listSize s c p) (hc : c ∈ s.removed) :
    s.removed.count c = 1 ∧ c ∉ s.list ∧
      (s.reclaimed.count c = 1 ∧ (∀ t, s.pc t ≠ .cellReclaim c) ∨
        s.reclaimed.count c = 0 ∧ ∃! t, s.pc t = .cellReclaim c) := by
  have howed : ∀ t, s.pc t = .cellReclaim c ↔ p = .owed t := fun t => by
    rw [← hp.owed]
    cases s.pc t <;> simp [Pc.owed]
  have hpos := count_pos_iff.mpr hc
  obtain ⟨hun, -, -, -, hmem, -, hrem, hrec, -⟩ := hp
  cases p with
  | owed t =>
    refine ⟨hrem, by grind, .inr ⟨hrec, t, (howed t).mpr rfl, fun u hu => ?_⟩⟩
    cases (howed u).mp hu
    rfl
  | reclaimed => exact ⟨hrem, by grind, .inl ⟨hrec, fun t ht => nomatch (howed t).mp ht⟩⟩
  | unborn | held | listed | freed => grind

theorem removed_of_reclaimed (hp : At listSize s c p) (hc : c ∈ s.reclaimed) : c ∈ s.removed := by
  have hpos := count_pos_iff.mpr hc
  rw [hp.reclaimed] at hpos
  split_ifs at hpos with hr
  · subst hr
    rw [← count_pos_iff, hp.removed]
    exact Nat.one_pos
  · cases hpos

theorem built (hp : At listSize s c p) (hle : listSize ≤ c) (hlt : c < s.next)
    (hc : c ∉ s.inserted) :
    s.freed.count c = 1 ∧ (∀ t, (s.pc t).fresh ≠ some c) ∨
      s.freed.count c = 0 ∧ ∃! t, (s.pc t).fresh = some c := by
  obtain ⟨hun, hheld, -, -, -, hins, -, -, hfreed⟩ := hp
  cases p with
  | held t =>
    refine .inr ⟨hfreed, t, (hheld t).mpr rfl, fun u hu => ?_⟩
    cases (hheld u).mp hu
    rfl
  | freed => exact .inl ⟨hfreed, fun t ht => nomatch (hheld t).mp ht⟩
  | unborn | owed | listed | reclaimed => grind

theorem not_listed {s₁ : Sys nindex} {q : Place nindex} (hp : At listSize s c p)
    (hc : c ∈ s.freed) (hq : At listSize s₁ c q) (hsub : s₁.inserted ⊆ s.inserted) :
    c ∉ s₁.list := by
  have hpos := count_pos_iff.mpr hc
  rw [hp.freed] at hpos
  split_ifs at hpos with hf
  · subst hf
    intro hl
    rcases hq.mem.mp hl with hlt | ⟨i, rfl⟩
    · cases hp.unborn.mpr (.inl hlt)
    · cases hp.inserted.mp (hsub (hq.inserted.mpr rfl))
  · cases hpos

end At

structure Sys.Inv (listSize : ℕ) (s : Sys nindex) : Prop where
  le : listSize ≤ s.next
  nodup : s.list.Nodup
  anchor : ∀ t a, (s.pc t).anchor = some a → a < listSize
  life : ∀ c, ∃ p, At listSize s c p

namespace Sys

@[grind =]
theorem go_pc (p : Pc nindex) (u : ℕ) : (s.go t p).pc u = if u = t then p else s.pc u :=
  update_apply ..

namespace Inv

theorem init (listSize : ℕ) : Inv listSize (init listSize : Sys nindex) where
  le := Nat.le_refl _
  nodup := nodup_range
  anchor := by simp [Sys.init, Pc.anchor]
  life c := by
    refine ⟨.unborn, ?_⟩
    constructor <;>
      simp [Sys.init, Pc.fresh, Pc.owed, Place.inserted, Place.removed, Nat.lt_or_ge]

theorem go (hI : Inv listSize s) {p p₀ : Pc nindex} (hpc : s.pc t = p₀)
    (hfresh : p.fresh = p₀.fresh := by rfl) (howed : p.owed = p₀.owed := by rfl)
    (hanchor : p.anchor = none ∨ p.anchor = p₀.anchor := by exact .inl rfl) :
    Inv listSize (s.go t p) := by
  subst hpc
  refine ⟨hI.le, hI.nodup, fun u a ha => ?_, fun c => ?_⟩
  · have := hI.anchor u a
    grind
  · obtain ⟨p, hp⟩ := hI.life c
    refine ⟨p, { hp with held := fun u => ?_, owed := fun u => ?_ }⟩
    · rw [← hp.held]
      grind
    · rw [← hp.owed]
      grind

theorem again (hI : Inv listSize s) {m : Mode} {p₀ : Pc nindex} (hpc : s.pc t = p₀)
    (hfresh : none = p₀.fresh := by rfl) (howed : none = p₀.owed := by rfl) :
    Inv listSize (s.go t (m.again i)) := by
  cases m <;> exact hI.go hpc hfresh howed

theorem advance (hI : Inv listSize s) {p : Pc nindex} (hpc : s'.pc = update s.pc t p)
    (hanchor : ∀ a, p.anchor = some a → a < listSize) (hle : s.next ≤ s'.next)
    (hnodup : s'.list.Nodup) {q : Place nindex} (hc : ∀ p, At listSize s c p → At listSize s' c q)
    (hother : ∀ d p, d ≠ c → At listSize s d p → At listSize s' d p) : Inv listSize s' := by
  refine ⟨Nat.le_trans hI.le hle, hnodup, fun u a ha => ?_, fun d => ?_⟩
  · rw [hpc, update_apply] at ha
    split_ifs at ha
    · exact hanchor a ha
    · exact hI.anchor u a ha
  · obtain ⟨p, hp⟩ := hI.life d
    by_cases hd : d = c
    · subst hd
      exact ⟨q, hc p hp⟩
    · exact ⟨p, hother d p hd hp⟩

theorem alloc (hI : Inv listSize s) (hpc : s.pc t = .load .write i) (ha : a < listSize) :
    Inv listSize { s.go t (.insertPrepare i s.next a) with next := s.next + 1 } := by
  have hle := hI.le
  refine hI.advance (c := s.next) (q := .held t) rfl (fun _ h => by cases h; exact ha)
    (Nat.le_succ _) hI.nodup ?_ ?_
  · intro p hp
    obtain rfl := hp.unborn.mpr (.inr (Nat.le_refl _))
    cases hp
    constructor <;> simp only [Sys.go, update_apply] <;> grind
  · rintro d p hd ⟨⟩
    constructor <;> simp only [Sys.go, update_apply] <;> grind

theorem insertCommit (hI : Inv listSize s) {succ : Option ℕ}
    (hpc : s.pc t = .insertCommit i c a succ) (hi : s.index i = none) :
    Inv listSize { s.go t .idle with
      list := insertAfter a c s.list
      index := update s.index i (some c)
      inserted := c :: s.inserted } := by
  have ha : a ∈ s.list := by
    obtain ⟨p, hp⟩ := hI.life a
    exact hp.mem.mpr (.inl (hI.anchor t a (by rw [hpc]; rfl)))
  have hperm := insertAfter_perm (c := c) ha
  have hmem : ∀ d, d ∈ insertAfter a c s.list ↔ d = c ∨ d ∈ s.list := fun d => by
    rw [hperm.mem_iff, mem_cons]
  have hplace : ∀ p, At listSize s c p → p = .held t := fun p hp =>
    (hp.held t).mp (by rw [hpc]; rfl)
  refine hI.advance (c := c) (q := .listed i) rfl nofun (Nat.le_refl _) ?_ ?_ ?_
  · rw [hperm.nodup_iff, nodup_cons]
    refine ⟨fun hc => ?_, hI.nodup⟩
    obtain ⟨p, hp⟩ := hI.life c
    obtain rfl := hplace p hp
    grind [hp.mem, hp.unborn]
  · intro p hp
    obtain rfl := hplace p hp
    cases hp
    constructor <;> simp only [Sys.go, update_apply] <;> grind
  · rintro d p hd ⟨⟩
    constructor <;> simp only [Sys.go, update_apply] <;> grind

theorem cellFree (hI : Inv listSize s) (hpc : s.pc t = .cellFree i c) :
    Inv listSize { s.go t (.load .write i) with freed := c :: s.freed } := by
  refine hI.advance (c := c) (q := .freed) rfl nofun (Nat.le_refl _) hI.nodup ?_ ?_
  · intro p hp
    obtain rfl := (hp.held t).mp (by rw [hpc]; rfl)
    cases hp
    constructor <;> simp only [Sys.go, update_apply] <;> grind
  · rintro d p hd ⟨⟩
    constructor <;> simp only [Sys.go, update_apply] <;> grind

theorem delCommit (hI : Inv listSize s) {m : Mode} {prev succ : Option ℕ}
    (hpc : s.pc t = .delCommit m i c prev succ) (hi : s.index i = some c) :
    Inv listSize { s.go t (.cellReclaim c) with
      list := s.list.erase c
      index := update s.index i none
      removed := c :: s.removed } := by
  have hmem : ∀ d, d ∈ s.list.erase c ↔ d ≠ c ∧ d ∈ s.list := fun d => hI.nodup.mem_erase_iff
  refine hI.advance (c := c) (q := .owed t) rfl nofun (Nat.le_refl _) (hI.nodup.erase c) ?_ ?_
  · intro p hp
    obtain rfl := (hp.listed i).mp hi
    cases hp
    constructor <;> simp only [Sys.go, update_apply] <;> grind
  · rintro d p hd ⟨⟩
    constructor <;> simp only [Sys.go, update_apply] <;> grind

theorem cellReclaim (hI : Inv listSize s) (hpc : s.pc t = .cellReclaim c) :
    Inv listSize { s.go t .idle with reclaimed := c :: s.reclaimed } := by
  refine hI.advance (c := c) (q := .reclaimed) rfl nofun (Nat.le_refl _) hI.nodup ?_ ?_
  · intro p hp
    obtain rfl := (hp.owed t).mp (by rw [hpc]; rfl)
    cases hp
    constructor <;> simp only [Sys.go, update_apply] <;> grind
  · rintro d p hd ⟨⟩
    constructor <;> simp only [Sys.go, update_apply] <;> grind

theorem step (hI : Inv listSize s) (hs : s.step listSize t a = some s') : Inv listSize s' := by
  rw [Sys.step] at hs
  split at hs
  case h_1 => cases hs
  case h_2 m i hpc =>
    split at hs
    · cases hs
      exact hI.go hpc
    · cases hs
      exact hI.go hpc
    · split_ifs at hs with ha
      cases hs
      exact hI.alloc hpc ha
  case h_3 i c a hpc =>
    cases hs
    exact hI.go hpc rfl rfl (.inr rfl)
  case h_4 i c a succ hpc =>
    split_ifs at hs with hrec <;> cases hs
    · exact hI.insertCommit hpc hrec.2
    · exact hI.go hpc
  case h_5 i c hpc =>
    cases hs
    exact hI.cellFree hpc
  case h_6 m i c hpc =>
    split_ifs at hs <;> cases hs
    · exact hI.go hpc
    · exact hI.again hpc
  case h_7 m i c prev succ hpc =>
    split_ifs at hs with hrec <;> cases hs
    · exact hI.delCommit hpc hrec.2.2.2
    · exact hI.again hpc
  case h_8 c hpc =>
    cases hs
    exact hI.cellReclaim hpc

theorem fail (hI : Inv listSize s) (hs : s.fail t = some s') : Inv listSize s' := by
  rw [Sys.fail] at hs
  split at hs
  case h_5 => cases hs
  all_goals
    rename_i hpc
    cases hs
  case h_1 | h_2 => exact hI.go hpc
  case h_3 | h_4 => exact hI.again hpc

theorem reach (hr : Reach (Sys.act listSize) (fun _ _ => True) (Sys.init listSize : Sys nindex) s) :
    Inv listSize s := by
  refine hr.invariant (init listSize) fun s α s' hI _ hs => ?_
  cases α with
  | write t i | reset t i =>
    rw [Sys.act] at hs
    split_ifs at hs with hpc
    cases hs
    exact hI.go hpc
  | step t a => exact hI.step hs
  | fail t => exact hI.fail hs

end Inv

theorem inserted_mono {s₀ : Sys nindex} (hr : Reach (act listSize) (fun _ _ => True) s₀ s) :
    s₀.inserted ⊆ s.inserted := by
  refine hr.invariant (P := fun s => s₀.inserted ⊆ s.inserted) (fun _ => id)
    fun s α s' hsub _ hs c hc => ?_
  have hc := hsub hc
  cases α with
  | write | reset =>
    rw [act] at hs
    split_ifs at hs
    cases hs
    exact hc
  | step => grind [act, step, go]
  | fail => grind [act, fail, go]

end Sys

/-- Every state of a run of any number of writers. -/
theorem cells_accounted
    (hr : Reach (Sys.act listSize) (fun _ _ => True) (Sys.init listSize : Sys nindex) s) :
    s.list.Nodup ∧ (∀ a < listSize, a ∈ s.list) ∧
    (∀ i c, s.index i = some c → c ∈ s.list ∧ listSize ≤ c) ∧
    (∀ c ∈ s.list, listSize ≤ c → ∃! i, s.index i = some c) ∧
    (∀ c ∈ s.removed, s.removed.count c = 1 ∧ c ∉ s.list ∧
      (s.reclaimed.count c = 1 ∧ (∀ t, s.pc t ≠ .cellReclaim c) ∨
        s.reclaimed.count c = 0 ∧ ∃! t, s.pc t = .cellReclaim c)) ∧
    (∀ c ∈ s.reclaimed, c ∈ s.removed) ∧
    (∀ c, listSize ≤ c → c < s.next → c ∉ s.inserted →
      s.freed.count c = 1 ∧ (∀ t, (s.pc t).fresh ≠ some c) ∨
        s.freed.count c = 0 ∧ ∃! t, (s.pc t).fresh = some c) ∧
    (∀ c ∈ s.freed, ∀ s₁, Reach (Sys.act listSize) (fun _ _ => True) (Sys.init listSize) s₁ →
      Reach (Sys.act listSize) (fun _ _ => True) s₁ s →
        c ∉ s₁.list ∧ ∀ i, s₁.index i ≠ some c) := by
  have hI := Sys.Inv.reach hr
  choose place hp using hI.life
  refine ⟨hI.nodup, fun a ha => (hp a).mem.mpr (.inl ha), fun i c => (hp c).of_index,
    fun c => (hp c).named, fun c => (hp c).taken, fun c => (hp c).removed_of_reclaimed,
    fun c => (hp c).built, fun c hc s₁ hr₁ hr' => ?_⟩
  obtain ⟨q, hq⟩ := (Sys.Inv.reach hr₁).life c
  have hout := (hp c).not_listed hc hq (Sys.inserted_mono hr')
  exact ⟨hout, fun i hi => hout (hq.of_index hi).1⟩

/-- Two writers draw the same empty slot: the second one loses its insert, frees the cell, and takes
the first one's cell out. -/
theorem cells_accounted_race : ∃ s : Sys 1,
    Reach (Sys.act 2) (fun _ _ => True) (Sys.init 2) s ∧ s.removed = [2] ∧ s.reclaimed = [2] ∧
      s.freed = [3] ∧ ∀ c ∈ s.reclaimed, c ∈ s.removed := by
  have he : (exec (Sys.act 2) (Sys.init 2 : Sys 1) [.write 0 0, .write 1 0, .step 0 0, .step 1 1,
      .step 0 0, .step 1 0, .step 0 0, .step 1 0, .step 1 0, .step 1 0, .step 1 0, .step 1 0,
      .step 1 0]).map (fun s => (s.removed, s.reclaimed, s.freed)) = some ([2], [2], [3]) := by
    rfl
  obtain ⟨s, hr, hs⟩ := reach_exec_map he
  simp only [Prod.mk.injEq] at hs
  exact ⟨s, hr, hs.1, hs.2.1, hs.2.2, (cells_accounted hr).2.2.2.2.2.1⟩

end TrieBenchmark.Bench.RandomPos
