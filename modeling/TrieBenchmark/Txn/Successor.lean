import TrieBenchmark.Txn.Step

/-!
What a program point hands on to the next: the move it works on and what it has recorded for it,
the directory it links into, the id it has stored, the shell it folds and the shells it has to
queue. The listed transitions begin with one of these; every other one passes them on or drops
them.
-/

namespace TrieBenchmark.Txn

open Option

variable {Name : Type} {d : Cache Name} {arm : Arm} {pc pc' : Pc Name} {n p : ℕ}

namespace Pc

@[grind =] def pending : Pc Name → List ℕ
  | .stkClear _ _ (.done n) | .stkQueue n => [n]
  | .xchClearA _ _ _ (.done s) | .xchClearB _ _ _ (.done s) => [s.1, s.2]
  | .xchQueueA sa sb => [sa, sb]
  | .xchQueueB sb => [sb]
  | _ => []

def fold : Pc Name → Option ℕ
  | .fldTest n => some n
  | pc => pc.folds

@[grind =] def move : Pc Name → Option (Move Name)
  | .stkState m | .stkFind m | .stkGray m _ | .stkGuard m _ | .stkHead m _ _ | .stkScan m _ _
  | .stkJudge m _ _ _ | .stkNeg m _ _ _ | .stkSib m _ _ | .stkOld m _ _ | .stkWalk m _ _ _ _ _
  | .stkHop m _ _ _ _ _ | .stkCommit m _ _ _ | .stkClear m _ _ => some m
  | _ => none

def guards : Pc Name → Option (Move Name × Guards)
  | .stkHead m _ g | .stkScan m _ g | .stkJudge m _ g _ | .stkNeg m _ g _ | .stkSib m _ g
  | .stkOld m _ g | .stkWalk m _ g _ _ _ | .stkHop m _ g _ _ _ | .stkCommit m _ g _ => some (m, g)
  | _ => none

@[grind =] def into : Pc Name → Option ℕ
  | .addState e | .addHead e _ | .addScan e _ _ | .addCommit e _ _ => some e.parent
  | .stkState m | .stkFind m | .stkGray m _ | .stkGuard m _ | .stkHead m _ _ | .stkScan m _ _
  | .stkJudge m _ _ _ | .stkNeg m _ _ _ | .stkSib m _ _ | .stkOld m _ _ | .stkWalk m _ _ _ _ _
  | .stkHop m _ _ _ _ _ | .stkCommit m _ _ _ | .stkClear m _ _ => some m.newParent
  | _ => none

def stored : Pc Name → Option (ℕ × ℕ)
  | .setCommit host false id _ => some (host, id)
  | _ => none

def recorded (pc : Pc Name) : Option (Move Name × List (ℕ × StateWord) × Option ℕ) :=
  pc.guards.map fun p => (p.1, p.2.words, p.2.neg)

end Pc

def Pc.stacks : Pc Name → Bool
  | .stkCommit .. | .stkClear .. | .xchCommit .. | .xchClearA .. | .xchClearB ..
  | .xchQueueA .. => true
  | _ => false

structure Passes (pc pc' : Pc Name) : Prop where
  move : pc'.move = none ∨ pc'.move = pc.move
  recorded : pc'.recorded = none ∨ pc'.recorded = pc.recorded
  into : pc'.into = none ∨ pc'.into = pc.into
  dir : pc'.dir = none ∨ pc'.dir = pc.dir
  stored : pc'.stored = none
  fold : pc'.fold = none ∨ pc'.fold = pc.fold
  folds : pc'.folds = none ∨ pc'.folds = pc.folds
  pending : pc'.pending = [] ∨ pc.stacks = true

variable [DecidableEq Name]

inductive Successor (arm : Arm) (d : Cache Name) : Pc Name → Pc Name → Prop where
  | passes {q q' : Pc Name} (h : Passes q q') : Successor arm d q q'
  | walk {cur name rest k host} (hf : d.childLookup cur name = some host) :
      Successor arm d (.walk cur (name :: rest) k) (.walk host rest k)
  | back {cur rest k k'} : Successor arm d (.walk cur [] k) (.walk root rest k')
  | victim {fromParent fromName toDir toName k} :
      Successor arm d (.renVictim fromParent fromName toDir toName) (.walk root toDir k)
  | add {e} (hdir : (d.dentry e.parent).isdir = true) :
      Successor arm d (.addCheck e) (.addState e)
  | stores {host id raw} :
      Successor arm d (.setId host false id raw) (.setCommit host false id raw)
  | cross {fromParent fromName victim toParent toName} :
      Successor arm d (.renCross fromParent fromName victim toParent toName) (.stkState ⟨fromParent,
        fromName, toParent, toName, (d.dentry victim).parent ≠ toParent⟩)
  | record {m top g} (hw : g.words = d.recordWord arm m.newParent) (hn : g.neg = none) :
      Successor arm d (.stkGuard m top) (.stkHead m top g)
  | recordNeg {m top g g' cur} (hw : g'.words = g.words ++ d.recordWord arm cur)
      (hn : g'.neg = some cur) : Successor arm d (.stkNeg m top g cur) (.stkSib m top g')
  | fold {k} (hm : d.mark k = false) : Successor arm d (.fldTest k) (.fldName k)
  | foldOwn {k} (hm : d.mark k = false) : Successor arm d (.fldTest k) (.fldOwn k)

theorem stepPc_successor (arm : Arm) (d : Cache Name) (pc : Pc Name) (ans : Answer) :
    Successor arm d pc (stepPc arm d pc ans).2 := by
  cases pc
  case' walk _ rest k => cases rest <;> cases k
  case' setId negative _ _ => cases negative
  case' lkHop rest _ _ => cases rest
  case' lkScan _ node => cases node
  case' lkUp todo _ => cases todo
  case' stkClear _ _ o => cases o
  case' xchClearB _ _ _ o => cases o
  all_goals
    simp only [stepPc, stackEnds, exchangeEnds, afterStack, afterExchange, Pc.lkStart]
    repeat' split
  all_goals first
    | (refine .passes ?_
       constructor <;> first
         | exact .inl rfl
         | exact .inr rfl
         | exact rfl)
    | exact .walk ‹_›
    | exact .back
    | exact .victim
    | exact .add (by simp_all)
    | exact .stores
    | exact .cross
    | exact .record rfl rfl
    | exact .recordNeg rfl rfl
    | exact .fold (by simp_all)
    | exact .foldOwn (by simp_all)

namespace Successor

theorem pending_nil (h : Successor arm d pc pc') (hs : pc.stacks = false) : pc'.pending = [] := by
  cases h with
  | passes h => exact h.pending.resolve_right (by simp [hs])
  | _ => rfl

theorem stored_eq {q : ℕ × ℕ} (h : Successor arm d pc pc') (hq : pc'.stored = some q) :
    ∃ raw, pc = .setId q.1 false q.2 raw := by
  cases h with
  | passes h => cases h.stored.symm.trans hq
  | stores =>
    obtain rfl := some.inj hq
    exact ⟨_, rfl⟩
  | _ => cases hq

/-- A fold goes on with the shell it was given, and is past its test only if the test or an
earlier step of it was. -/
theorem fold_eq (h : Successor arm d pc pc') (hn : pc'.fold = some n) : pc.fold = some n ∧
    (pc'.folds = some n → pc.folds = some n ∨ pc = .fldTest n ∧ d.mark n = false) := by
  cases h with
  | passes h =>
    exact ⟨(h.fold.resolve_left (by simp [hn])).symm.trans hn,
      fun hf => .inl ((h.folds.resolve_left (by simp [hf])).symm.trans hf)⟩
  | fold hm | foldOwn hm =>
    obtain rfl := some.inj hn
    exact ⟨rfl, fun _ => .inr ⟨rfl, hm⟩⟩
  | _ => cases hn

/-- The records begin with the word of the destination directory; that of an occupant is added
when it is taken for the one to replace. -/
theorem guards_eq {m : Move Name} {g' : Guards} (h : Successor arm d pc pc')
    (hg : pc'.guards = some (m, g')) :
    (∃ g, pc.guards = some (m, g) ∧ g'.words = g.words ∧ g'.neg = g.neg) ∨
      (∃ top, pc = .stkGuard m top ∧ g'.words = d.recordWord arm m.newParent ∧ g'.neg = none) ∨
      ∃ top g cur, pc = .stkNeg m top g cur ∧ g'.words = g.words ++ d.recordWord arm cur ∧
        g'.neg = some cur := by
  cases h with
  | passes h =>
    have he := h.recorded.resolve_left (by simp [Pc.recorded, hg])
    simp only [Pc.recorded, hg, map_some] at he
    obtain ⟨⟨_, g⟩, hpc, hp⟩ := map_eq_some_iff.mp he.symm
    obtain ⟨rfl, hw, hn⟩ : _ = m ∧ g.words = g'.words ∧ g.neg = g'.neg := by simpa using hp
    exact .inl ⟨g, hpc, hw.symm, hn.symm⟩
  | record hw hn =>
    obtain ⟨rfl, rfl⟩ := Prod.mk.inj (some.inj hg)
    exact .inr (.inl ⟨_, rfl, hw, hn⟩)
  | recordNeg hw hn =>
    obtain ⟨rfl, rfl⟩ := Prod.mk.inj (some.inj hg)
    exact .inr (.inr ⟨_, _, _, rfl, hw, hn⟩)
  | _ => cases hg

end Successor

end TrieBenchmark.Txn
