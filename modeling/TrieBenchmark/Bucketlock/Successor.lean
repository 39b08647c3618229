import TrieBenchmark.Bucketlock.Step

/-!
What a program point hands on to the next: the move or exchange it works on, the directory it
links into, the name it looked up first, the shell it folds and the shells it has to queue. Six
transitions begin with one of these; every other one passes them on or drops them.
-/

namespace TrieBenchmark.Bucketlock

open Option

variable {Name : Type} {d : DCache Name} {pc pc' : Pc Name} {n p : ℕ}

structure Found (Name : Type) where
  parent : ℕ
  name : Name
  host : Option ℕ

namespace Pc

def into : Pc Name → Option ℕ
  | .addLock parent _ _ _ _ => some parent
  | .renCross _ _ _ toParent _ => some toParent
  | pc => pc.move.map Move.newParent

@[grind =] def found : Pc Name → Option (Found Name)
  | .walk _ _ (.renameTo fromParent fromName victim _) | .renDest fromParent fromName victim _ _
  | .renDestPos fromParent fromName victim _ _ _ | .renToPos fromParent fromName victim _ _
  | .renCross fromParent fromName victim _ _ => some ⟨fromParent, fromName, some victim⟩
  | .xchLookB x hosta => some ⟨x.pa, x.na, hosta⟩
  | _ => none

def fold : Pc Name → Option ℕ
  | .fldTest n | .fldLock n => some n
  | _ => none

@[grind =] def pending : Pc Name → List ℕ
  | .stkClear _ _ (.done n) | .stkQueue n => [n]
  | .xchClearA _ _ _ (.done s) | .xchClearB _ _ _ (.done s) => [s.1, s.2]
  | .xchQueueA sa sb => [sa, sb]
  | .xchQueueB sb => [sb]
  | _ => []

end Pc

def Pc.stacks : Pc Name → Bool
  | .stkLock .. | .stkClear .. | .xchLock .. | .xchClearA .. | .xchClearB .. | .xchQueueA .. => true
  | _ => false

structure Passes (pc pc' : Pc Name) : Prop where
  move : pc'.move = none ∨ pc'.move = pc.move
  xchg : pc'.xchg = none ∨ pc'.xchg = pc.xchg
  into : pc'.into = none ∨ pc'.into = pc.into
  found : pc'.found = none ∨ pc.reads = true ∧ pc'.found = pc.found
  addDir : pc'.addDir = none
  fold : pc'.fold = none
  pending : pc'.pending = [] ∨ pc.stacks = true

variable [DecidableEq Name]

inductive Successor (d : DCache Name) : Pc Name → Pc Name → Prop where
  | passes {q q' : Pc Name} (h : Passes q q') : Successor d q q'
  | add {parent name id isdir positive} (hdir : (d.dentry parent).isdir = true) :
      Successor d (.addCheck parent name id isdir positive) (.addLock parent name id isdir positive)
  | victim {fromParent fromName toDir toName victim}
      (hf : d.childLookup fromParent fromName = some victim) :
      Successor d (.renVictim fromParent fromName toDir toName)
        (.walk root toDir (.renameTo fromParent fromName victim toName))
  | toPos {fromParent fromName victim toParent toName} :
      Successor d (.renToPos fromParent fromName victim toParent toName)
        (.renCross fromParent fromName victim toParent toName)
  | cross {fromParent fromName victim toParent toName} :
      Successor d (.renCross fromParent fromName victim toParent toName) (.stkFind ⟨fromParent,
        fromName, toParent, toName, (d.dentry victim).parent ≠ toParent⟩)
  | lookA {x} : Successor d (.xchLookA x) (.xchLookB x (d.childLookup x.pa x.na))
  | lookB {x ha hb} (hf : d.childLookup x.pb x.nb = some hb) (hne : ha ≠ hb) :
      Successor d (.xchLookB x (some ha)) (.xchFindA x)
  | fold {k : ℕ} : Successor d (.fldTest k) (.fldLock k)

theorem stepPc_successor (d : DCache Name) (pc : Pc Name) (oom : Bool) :
    Successor d pc (stepPc d pc oom).2 := by
  cases pc
  case' walk _ rest k => cases rest <;> cases k
  case' lkHop rest _ _ => cases rest
  case' lkScan _ node => cases node
  case' lkUp todo _ => cases todo
  case' stkClear _ _ o => cases o
  case' xchClearB _ _ _ o => cases o
  case' stkLock m top => rcases ho : d.stackLocked m top oom with ⟨_ | _ | _, _⟩
  case' xchLock x topa topb => rcases ho : d.exchangeLocked x topa topb oom with ⟨_ | _ | _, _⟩
  all_goals
    simp only [stepPc, *]
    repeat' split
  all_goals first
    | (refine .passes ?_
       constructor <;> first
         | rfl
         | exact .inl rfl
         | exact .inr rfl
         | exact .inr ⟨rfl, rfl⟩)
    | exact .add (by simp_all)
    | exact .victim ‹_›
    | exact .toPos
    | exact .cross
    | exact .lookA
    | exact .lookB ‹_› ‹_›
    | exact .fold

theorem eq_some_of_passes {α : Type} {o o' : Option α} {a : α} (h : o' = none ∨ o' = o)
    (ha : o' = some a) : o = some a := by
  rcases h with rfl | rfl
  · cases ha
  · exact ha

namespace Successor

theorem pending_nil (h : Successor d pc pc') (hs : pc.stacks = false) : pc'.pending = [] := by
  cases h with
  | passes h => exact h.pending.resolve_right (by simp [hs])
  | _ => rfl

theorem fold_eq (h : Successor d pc pc') (hn : pc'.fold = some n) : pc = .fldTest n := by
  cases h with
  | passes h => cases h.fold.symm.trans hn
  | fold =>
    obtain rfl := some.inj hn
    rfl
  | _ => cases hn

theorem isdir_addDir (h : Successor d pc pc') (hp : pc'.addDir = some p) :
    (d.dentry p).isdir = true := by
  cases h with
  | passes h => cases h.addDir.symm.trans hp
  | add hdir =>
    obtain rfl := some.inj hp
    exact hdir
  | _ => cases hp

theorem found_eq {f : Found Name} (h : Successor d pc pc') (hf : pc'.found = some f) :
    pc.reads = true ∧ (pc.found = some f ∨ d.childLookup f.parent f.name = f.host) := by
  cases h with
  | passes h =>
    rcases h.found with hn | ⟨hr, he⟩
    · cases hn.symm.trans hf
    · exact ⟨hr, .inl (he ▸ hf)⟩
  | victim hv =>
    obtain rfl := some.inj hf
    exact ⟨rfl, .inr hv⟩
  | toPos => exact ⟨rfl, .inl hf⟩
  | lookA =>
    obtain rfl := some.inj hf
    exact ⟨rfl, .inr rfl⟩
  | _ => cases hf

end Successor

end TrieBenchmark.Bucketlock
