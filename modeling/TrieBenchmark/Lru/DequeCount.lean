import Mathlib.Algebra.GroupWithZero.Nat
import Mathlib.Data.Finset.Card
import TrieBenchmark.Lru.Deque

/-!
The counts of the deques. When no commit about a node overtakes the count update of an earlier one,
the count of a shard is the number of nodes that are on it and counted, or off it and not yet
taken off the count. All of them exist, so the budget of a pass is no larger than their number.
-/

namespace TrieBenchmark.LruDeque

open Option Function Run

namespace Pc

def dead : Pc → Option ℕ
  | .decSeal a _ _ | .reclaim a _ => some a
  | _ => none

def node : Pc → Option ℕ
  | .publish a | .retain a _ | .alive a _ _ | .push a _ _ | .inc a _ _ | .del a | .remove a _
  | .dec a _ | .look a _ | .removeSeal a _ _ | .sealOff a _ | .decSeal a _ _ | .reclaim a _ =>
    some a
  | _ => none

def owes (pc : Pc) : Option Update × Option ℕ :=
  (pc.update, pc.dead)

end Pc

def Dcache.books (d : Dcache) : (ℕ → Owner) × (ℕ → BitVec 64) × List ℕ :=
  (d.owner, d.count, d.reclaim)

/-- What a step does to the books, and what the thread owes before and after. -/
inductive Change (d : Dcache) (pc : Pc) (d' : Dcache) (pc' : Pc) : Prop where
  | still (k : Option ℕ) : d'.books = d.books → pc.owes = (none, k) → pc'.owes = (none, k) →
      Change d pc d' pc'
  | push (a q : ℕ) : d.owner a = .off → pc.commits = some a → pc.node = some a →
      d'.books = (update d.owner a (.queue q), d.count, d.reclaim) →
      pc.owes = (none, none) → pc'.owes = (some (.inc a q), none) → Change d pc d' pc'
  | inc (a q : ℕ) :
      d'.books = (d.owner, update d.count q (d.count q + 1), d.reclaim) →
      pc.owes = (some (.inc a q), none) → pc'.owes = (none, none) → Change d pc d' pc'
  | remove (a q : ℕ) : d.owner a = .queue q → pc.commits = some a →
      d'.books = (update d.owner a .off, d.count, d.reclaim) →
      pc.owes = (none, none) → pc'.owes = (some (.dec a q), none) → Change d pc d' pc'
  | removeSeal (a q : ℕ) : d.owner a = .queue q → pc.commits = some a →
      d'.books = (update d.owner a .poison, d.count, d.reclaim) →
      pc.owes = (none, none) → pc'.owes = (some (.dec a q), some a) →
      Change d pc d' pc'
  | sealOff (a : ℕ) : (∀ q, d.owner a ≠ .queue q) → pc.commits = some a → pc.node = some a →
      d'.books = (update d.owner a .poison, d.count, d.reclaim) →
      pc.owes = (none, none) → pc'.owes = (none, some a) → Change d pc d' pc'
  | dec (a q : ℕ) (k : Option ℕ) :
      d'.books = (d.owner, update d.count q (d.count q - 1), d.reclaim) →
      pc.owes = (some (.dec a q), k) → pc'.owes = (none, k) → Change d pc d' pc'
  | reclaim (a : ℕ) : d'.books = (d.owner, d.count, a :: d.reclaim) →
      pc.owes = (none, some a) → pc'.owes = (none, none) → Change d pc d' pc'

structure Keeps (d : Dcache) (pc : Pc) (d' : Dcache) (pc' : Pc) : Prop where
  fresh : d.fresh ≤ d'.fresh
  freed : d'.freed = d.freed
  node : ∀ a, pc'.node = some a → pc.node = some a ∨ d.published a = true ∨ a < d'.fresh
  published : ∀ a, d'.published a = true → d.published a = true ∨ pc.node = some a ∨ a < d'.fresh

variable {e : Engine} {d d' : Dcache} {pc pc' : Pc} {ok : Bool}

theorem Keeps.of_eq (hfresh : d'.fresh = d.fresh) (hfreed : d'.freed = d.freed)
    (hpub : d'.published = d.published)
    (hnode : ∀ a, pc'.node = some a → pc.node = some a ∨ d.published a = true) :
    Keeps d pc d' pc' := by
  refine ⟨hfresh.ge, hfreed, fun a ha => ?_, fun a ha => .inl (hpub ▸ ha)⟩
  exact (hnode a ha).imp_right .inl

theorem afterPush_node {a x : ℕ} {new : Bool} (h : (afterPush a new).node = some x) : a = x := by
  cases new with
  | false => cases h
  | true => exact some.inj h

theorem afterPush_owes (a : ℕ) (new : Bool) : (afterPush a new).owes = (none, none) := by
  cases new <;> rfl

theorem afterKill_obs (k : Option Sweep) :
    (afterKill k).owes = (none, none) ∧ (afterKill k).node = none := by
  cases k <;> exact ⟨rfl, rfl⟩

theorem Engine.push_obs (e : Engine) (a q : ℕ) (new : Bool) :
    (e.push a q new).owes = (none, none) ∧ (e.push a q new).node = some a := by
  cases e <;> exact ⟨rfl, rfl⟩

theorem Dcache.published_of_removable {a : ℕ} (h : d.removable a = true) :
    d.published a = true := by
  simp only [Dcache.removable, Bool.and_eq_true] at h
  exact h.1.1.2

theorem quiet {k : Option ℕ} (hnode : ∀ a, pc'.node = some a → pc.node = some a ∨ d.published a = true)
    (hpc' : pc'.owes = (none, k) := by rfl) (hpc : pc.owes = (none, k) := by rfl)
    (hbooks : d'.books = d.books := by rfl) (hfresh : d'.fresh = d.fresh := by rfl)
    (hfreed : d'.freed = d.freed := by rfl) (hpub : d'.published = d.published := by rfl) :
    Change d pc d' pc' ∧ Keeps d pc d' pc' :=
  ⟨.still k hbooks hpc hpc', .of_eq hfresh hfreed hpub hnode⟩

theorem Dcache.of_books {o : ℕ → Owner} {c : ℕ → BitVec 64} {r : List ℕ} (h : d.books = (o, c, r)) :
    d.owner = o ∧ d.count = c ∧ d.reclaim = r := by
  cases h
  exact ⟨rfl, rfl, rfl⟩

theorem step_change (hs : step e d pc ok = some (d', pc')) :
    Change d pc d' pc' ∧ Keeps d pc d' pc' := by
  cases pc with
  | idle => cases hs
  | create =>
    simp only [step] at hs
    split_ifs at hs
    · cases hs
      exact quiet nofun
    · cases e with
      | bucketlock =>
        cases hs
        refine ⟨.still none rfl rfl rfl, Nat.le_succ _, rfl, fun a ha => ?_, fun _ => .inl⟩
        exact .inr (.inr (some.inj ha ▸ Nat.lt_succ_self _))
      | txn =>
        cases hs
        refine ⟨.still none rfl rfl rfl, Nat.le_succ _, rfl, fun a ha => ?_, fun a ha => ?_⟩
        · exact .inr (.inr (some.inj ha ▸ Nat.lt_succ_self d.fresh))
        · have ha : update d.published d.fresh true a = true := ha
          rcases eq_or_ne a d.fresh with he | hne
          · exact .inr (.inr (Nat.lt_succ_of_le he.le))
          · rw [update_of_ne hne] at ha
            exact .inl ha
  | publish a =>
    cases hs
    refine ⟨.still none rfl rfl rfl, Nat.le_refl _, rfl, nofun, fun x hx => ?_⟩
    have hx : update d.published a true x = true := hx
    rcases eq_or_ne x a with he | hne
    · exact .inr (.inl (he ▸ rfl))
    · rw [update_of_ne hne] at hx
      exact .inl hx
  | retain a q =>
    simp only [step] at hs
    split_ifs at hs <;> cases hs
    · exact quiet nofun
    · exact quiet (fun _ h => .inl ((e.push_obs a q false).2.symm.trans h))
        (e.push_obs a q false).1
  | alive a _ new =>
    simp only [step] at hs
    split_ifs at hs <;> cases hs
    · exact quiet (fun _ h => .inl (congrArg some (afterPush_node h)))
        (afterPush_owes a new)
    · exact quiet fun _ => .inl
  | push a q new =>
    have hout : Change d (.push a q new) d (afterPush a new) ∧
        Keeps d (.push a q new) d (afterPush a new) :=
      quiet (fun _ h => .inl (congrArg some (afterPush_node h)))
        (afterPush_owes a new)
    simp only [step, Dcache.pushTail] at hs
    by_cases howner : d.owner a = .off
    · simp only [howner, if_true] at hs
      split_ifs at hs <;> cases hs
      · exact hout
      · exact ⟨.push a q howner rfl rfl rfl rfl rfl, .of_eq rfl rfl rfl fun _ => .inl⟩
    · simp only [howner, if_false] at hs
      split_ifs at hs <;> cases hs <;> exact hout
  | inc a q new =>
    cases hs
    exact ⟨.inc a q rfl rfl (afterPush_owes a new), .of_eq rfl rfl rfl fun _ h =>
      .inl (congrArg some (afterPush_node h))⟩
  | del =>
    simp only [step] at hs
    split at hs <;> cases hs
    · exact quiet fun _ => .inl
    · exact quiet nofun
  | remove a q =>
    simp only [step, Dcache.remove] at hs
    by_cases howner : d.owner a = .queue q
    · simp only [howner, if_true] at hs
      split_ifs at hs <;> cases hs
      · exact quiet fun _ => .inl
      · exact ⟨.remove a q howner rfl rfl rfl rfl, .of_eq rfl rfl rfl fun _ => .inl⟩
    · simp only [howner, if_false] at hs
      split_ifs at hs <;> cases hs <;> exact quiet fun _ => .inl
  | dec a q =>
    cases hs
    exact ⟨.dec a q none rfl rfl rfl, .of_eq rfl rfl rfl fun _ => .inl⟩
  | unhash =>
    simp only [step] at hs
    split_ifs at hs with hrem <;> cases hs
    · exact quiet fun x h =>
        .inr (some.inj h ▸ Dcache.published_of_removable hrem)
    · exact quiet nofun
  | look =>
    simp only [step] at hs
    split at hs <;> cases hs <;> exact quiet fun _ => .inl
  | removeSeal a q k =>
    have hagain : Change d (.removeSeal a q k) d (.look a k) ∧
        Keeps d (.removeSeal a q k) d (.look a k) := quiet fun _ => .inl
    simp only [step, Dcache.remove] at hs
    by_cases howner : d.owner a = .queue q
    · simp only [howner, if_true, reduceCtorEq, if_false] at hs
      split_ifs at hs <;> cases hs
      · exact hagain
      · exact ⟨.removeSeal a q howner rfl rfl rfl rfl, .of_eq rfl rfl rfl fun _ => .inl⟩
    · simp only [howner, if_false] at hs
      split_ifs at hs with hok hpoison <;> cases hs
      · exact hagain
      · refine ⟨.sealOff a (by simp [hpoison]) rfl rfl ?_ rfl rfl, .of_eq rfl rfl rfl fun _ => .inl⟩
        rw [← hpoison, update_eq_self]
        rfl
      · exact hagain
  | sealOff a =>
    simp only [step] at hs
    split_ifs at hs
    · cases hs
      exact quiet fun _ => .inl
    · cases howner : d.owner a with
      | off =>
        rw [howner] at hs
        cases hs
        exact ⟨.sealOff a (by simp [howner]) rfl rfl rfl rfl rfl, .of_eq rfl rfl rfl fun _ => .inl⟩
      | queue =>
        rw [howner] at hs
        cases hs
        exact quiet fun _ => .inl
      | poison =>
        rw [howner] at hs
        cases hs
        refine ⟨.sealOff a (by simp [howner]) rfl rfl ?_ rfl rfl, .of_eq rfl rfl rfl fun _ => .inl⟩
        rw [← howner, update_eq_self]
        rfl
  | decSeal a q =>
    cases hs
    exact ⟨.dec a q (some a) rfl rfl rfl, .of_eq rfl rfl rfl fun _ => .inl⟩
  | reclaim a k =>
    cases hs
    exact ⟨.reclaim a rfl rfl (afterKill_obs k).1, .of_eq rfl rfl rfl fun _ h => by
      rw [(afterKill_obs k).2] at h
      cases h⟩
  | shard | loop | visit | kids =>
    simp only [step] at hs
    split_ifs at hs <;> cases hs <;> exact quiet nofun
  | head =>
    simp only [step] at hs
    split at hs <;> cases hs <;> exact quiet nofun
  | evict x =>
    simp only [step] at hs
    split_ifs at hs with hpub hrem <;> cases hs
    · rw [Bool.and_eq_true] at hrem
      exact quiet fun x h =>
        .inr (some.inj h ▸ Dcache.published_of_removable hrem.2)
    · exact quiet nofun
  | rotate =>
    simp only [step, Dcache.rotateHead] at hs
    cases hs
    split_ifs
    · split <;> exact quiet nofun
    · exact quiet nofun

theorem Change.owned (hc : Change d pc d' pc') {a : ℕ} (ha : d'.owner a ≠ .off) :
    d.owner a ≠ .off ∨ pc.node = some a := by
  have howner : ∀ {b}, d'.books = b → b.1 a ≠ .off := fun h => h ▸ ha
  cases hc <;>
  · have ho := howner ‹d'.books = _›
    grind [Dcache.books, update_apply]

theorem Change.reclaim_mono (hc : Change d pc d' pc') {a : ℕ} (ha : a ∈ d.reclaim) :
    a ∈ d'.reclaim := by
  cases hc <;> grind [Dcache.books]

theorem Pc.node_of_update {u : Update} (h : pc.update = some u) : pc.node = some u.node := by
  cases pc with
  | inc | dec | decSeal => cases h; rfl
  | _ => cases h

def Sweep.Fits (x : Sweep) : Prop :=
  x.scanned ≤ x.budget ∧ x.budget.toNat ≤ x.existed

theorem step_fits (hs : step e d pc ok = some (d', pc'))
    (hcount : ∀ q, (d.count q).toNat ≤ d.existing.length)
    (hfits : ∀ y, pc.sweep = some y → y.Fits) : ∀ x, pc'.sweep = some x → x.Fits := by
  intro x hx
  cases pc with
  | shard =>
    simp only [step] at hs
    split_ifs at hs <;> cases hs
    · cases hx
      exact ⟨by bv_omega, hcount _⟩
    · cases hx
  | loop y =>
    simp only [step] at hs
    split_ifs at hs with hlt <;> cases hs
    · cases hx
      obtain ⟨_, hb⟩ := hfits y rfl
      refine ⟨?_, hb⟩
      have hlt := hlt.2
      bv_omega
    · cases hx
  | reclaim _ k =>
    cases hs
    cases k with
    | none => cases hx
    | some y =>
      cases hx
      exact hfits y rfl
  | create =>
    cases e <;> grind [step, Pc.sweep]
  | retain =>
    cases e <;> grind [step, Pc.sweep, Engine.push]
  | _ =>
    -- the other steps go on with the pass they are in, or are in none
    grind [step, Pc.sweep, afterPush, Dcache.pushTail, Dcache.remove]

namespace Sys

variable {n : ℕ} {s : Sys n} {t : Fin n} {s' : Sys n}

/-- The node is on the deque and counted, or off it and still counted. -/
def Counts (s : Sys n) (q a : ℕ) : Prop :=
  s.d.owner a = .queue q ∧ (∀ t, (s.pc t).update ≠ some (.inc a q)) ∨
    ∃ t, (s.pc t).update = some (.dec a q)

def Booked (s : Sys n) : Prop :=
  ∀ q, ∃ S : Finset ℕ, (∀ a, a ∈ S ↔ s.Counts q a) ∧ s.d.count q = BitVec.ofNat 64 S.card

theorem Booked.congr (h : s.Booked) (hcount : s'.d.count = s.d.count)
    (hiff : ∀ q a, s'.Counts q a ↔ s.Counts q a) : s'.Booked := by
  intro q
  obtain ⟨S, hS, hcard⟩ := h q
  exact ⟨S, fun a => (hS a).trans (hiff q a).symm, hcount ▸ hcard⟩

theorem Booked.insert {q a : ℕ} (h : s.Booked) (hnew : ¬ s.Counts q a)
    (hcount : s'.d.count = update s.d.count q (s.d.count q + 1))
    (hiff : ∀ q' x, s'.Counts q' x ↔ s.Counts q' x ∨ q' = q ∧ x = a) : s'.Booked := by
  intro q'
  obtain ⟨S, hS, hcard⟩ := h q'
  rw [hcount]
  rcases eq_or_ne q' q with rfl | hne
  · refine ⟨Insert.insert a S, fun x => ?_, ?_⟩
    · rw [Finset.mem_insert, hS, hiff, or_comm]
      simp
    · rw [update_self, Finset.card_insert_of_notMem (mt (hS a).mp hnew), hcard,
        BitVec.ofNat_add]
      rfl
  · refine ⟨S, fun x => ?_, ?_⟩
    · simp [hS, hiff, hne]
    · rw [update_of_ne hne, hcard]

theorem Booked.erase {q a : ℕ} (h : s.Booked) (hold : s.Counts q a)
    (hcount : s'.d.count = update s.d.count q (s.d.count q - 1))
    (hiff : ∀ q' x, s'.Counts q' x ↔ s.Counts q' x ∧ ¬ (q' = q ∧ x = a)) : s'.Booked := by
  intro q'
  obtain ⟨S, hS, hcard⟩ := h q'
  rw [hcount]
  rcases eq_or_ne q' q with rfl | hne
  · have ha : a ∈ S := (hS a).mpr hold
    refine ⟨S.erase a, fun x => ?_, ?_⟩
    · rw [Finset.mem_erase, hS, hiff, and_comm]
      simp
    · rw [update_self, hcard, ← Finset.card_erase_add_one ha, BitVec.ofNat_add]
      exact BitVec.add_sub_cancel _ _
  · refine ⟨S, fun x => ?_, ?_⟩
    · simp [hS, hiff, hne]
    · rw [update_of_ne hne, hcard]

structure Tallied (s : Sys n) : Prop where
  inc : ∀ t a q, (s.pc t).update = some (.inc a q) → s.d.owner a = .queue q
  dec : ∀ t a q, (s.pc t).update = some (.dec a q) → ∀ q', s.d.owner a ≠ .queue q'
  one : ∀ t t' u u', (s.pc t).update = some u → (s.pc t').update = some u' →
    u.node = u'.node → t = t'
  dead : ∀ t a, (s.pc t).dead = some a →
    s.d.owner a = .poison ∧ ∀ t' u, (s.pc t').update = some u → u.node = a → t' = t
  reclaimed : ∀ a ∈ s.d.reclaim,
    s.d.owner a = .poison ∧ ∀ t u, (s.pc t).update = some u → u.node ≠ a
  books : s.Booked

theorem Tallied.init : Tallied (init n) where
  inc := by simp [Sys.init, Pc.update]
  dec := by simp [Sys.init, Pc.update]
  one := by simp [Sys.init, Pc.update]
  dead := by simp [Sys.init, Pc.dead]
  reclaimed := by simp [Sys.init, dcCreate]
  books := fun q => ⟨∅, by simp [Counts, Sys.init, dcCreate, Pc.update], by simp [Sys.init, dcCreate]⟩

theorem owes_step {u : Option Update} {k : Option ℕ} (h : pc'.owes = (u, k)) (t' : Fin n) :
    (update s.pc t pc' t').update = (if t' = t then u else (s.pc t').update) ∧
      (update s.pc t pc' t').dead = (if t' = t then k else (s.pc t').dead) := by
  obtain ⟨rfl, rfl⟩ := Prod.mk.inj h
  rcases eq_or_ne t' t with rfl | hne
  · simp
  · simp [hne]

/-- A count is brought up to date. -/
theorem Tallied.settle {u : Update} {k : Option ℕ} (h : Tallied s) (ho : d'.owner = s.d.owner)
    (hr : d'.reclaim = s.d.reclaim) (hp : (s.pc t).owes = (some u, k)) (hp' : pc'.owes = (none, k))
    (hbooks : Booked ⟨d', update s.pc t pc'⟩) : Tallied ⟨d', update s.pc t pc'⟩ := by
  obtain ⟨hu, hk⟩ := Prod.mk.inj hp
  have howes := owes_step (s := s) (t := t) hp'
  obtain ⟨hinc, hdec, hone, hdead, hrec, -⟩ := h
  refine ⟨?_, ?_, ?_, ?_, ?_, hbooks⟩ <;> clear hbooks <;> grind

/-- A commit changes the owner of a node that no thread owes an update for. -/
theorem Tallied.commit {a : ℕ} {w : Owner} {u : Option Update} {k : Option ℕ} (h : Tallied s)
    (hfree : ∀ t' u, (s.pc t').update = some u → u.node ≠ a)
    (hb : d'.books = (update s.d.owner a w, s.d.count, s.d.reclaim))
    (hp : (s.pc t).owes = (none, none)) (hp' : pc'.owes = (u, k))
    (hw : match u with
      | none => w = .poison ∧ ∀ q, s.d.owner a ≠ .queue q
      | some (.inc x q) => x = a ∧ w = .queue q ∧ s.d.owner a = .off
      | some (.dec x q) => x = a ∧ (∀ q', w ≠ .queue q') ∧ s.d.owner a = .queue q)
    (hk : ∀ x, k = some x → x = a ∧ w = .poison) : Tallied ⟨d', update s.pc t pc'⟩ := by
  obtain ⟨ho, hcnt, hr⟩ := Dcache.of_books hb
  obtain ⟨hu, hk'⟩ := Prod.mk.inj hp
  have howes := owes_step (s := s) (t := t) hp'
  clear hb
  have ho : ∀ x, d'.owner x = if x = a then w else s.d.owner x := fun x => by
    rw [ho, update_apply]
  obtain ⟨hinc, hdec, hone, hdead, hrec, hbooks⟩ := h
  constructor
  case books =>
    apply hbooks.congr hcnt
    clear hcnt
    grind [Counts, Update.node]
  all_goals
    clear hcnt
    grind [Update.node]

theorem Tallied.step (h : Tallied s) (hc : Change s.d (s.pc t) d' pc')
    (hok : ∀ a, (s.pc t).commits = some a → ∀ t' u, (s.pc t').update = some u → u.node ≠ a) :
    Tallied ⟨d', update s.pc t pc'⟩ := by
  cases hc with
  | still _ hb hp hp' | reclaim _ hb hp hp' =>
    obtain ⟨ho, hcnt, hr⟩ := Dcache.of_books hb
    obtain ⟨hu, hk⟩ := Prod.mk.inj hp
    have howes := owes_step (s := s) (t := t) hp'
    obtain ⟨hinc, hdec, hone, hdead, hrec, hbooks⟩ := h
    clear hok hb
    constructor
    case books =>
      apply hbooks.congr hcnt
      clear hcnt
      grind [Counts, Update.node]
    all_goals
      clear hcnt
      grind [Update.node]
  | push a q hoff hcom _ hb hp hp' =>
    exact h.commit (hok a hcom) hb hp hp' ⟨rfl, rfl, hoff⟩ nofun
  | remove a q hon hcom hb hp hp' =>
    exact h.commit (hok a hcom) hb hp hp' ⟨rfl, nofun, hon⟩ nofun
  | removeSeal a q hon hcom hb hp hp' =>
    exact h.commit (hok a hcom) hb hp hp' ⟨rfl, nofun, hon⟩ (by simp)
  | sealOff a hoff hcom _ hb hp hp' =>
    exact h.commit (hok a hcom) hb hp hp' ⟨rfl, hoff⟩ (by simp)
  | inc a q hb hp hp' =>
    obtain ⟨ho, hcnt, hr⟩ := Dcache.of_books hb
    apply h.settle ho hr hp hp'
    obtain ⟨hu, -⟩ := Prod.mk.inj hp
    have howes := owes_step (s := s) (t := t) hp'
    obtain ⟨hinc, hdec, hone, -, -, hbooks⟩ := h
    clear hok hb
    apply hbooks.insert (q := q) (a := a) _ hcnt <;> clear hcnt <;> grind [Counts, Update.node]
  | dec a q _ hb hp hp' =>
    obtain ⟨ho, hcnt, hr⟩ := Dcache.of_books hb
    apply h.settle ho hr hp hp'
    obtain ⟨hu, -⟩ := Prod.mk.inj hp
    have howes := owes_step (s := s) (t := t) hp'
    obtain ⟨hinc, hdec, hone, -, -, hbooks⟩ := h
    clear hok hb
    apply hbooks.erase (q := q) (a := a) _ hcnt <;> clear hcnt <;> grind [Counts, Update.node]

structure Inv (s : Sys n) : Prop where
  node : ∀ t a, (s.pc t).node = some a → a < s.d.fresh
  published : ∀ a, s.d.published a = true → a < s.d.fresh
  owned : ∀ a, s.d.owner a ≠ .off → a < s.d.fresh
  freed : ∀ a ∈ s.d.freed, a ∈ s.d.reclaim
  tallied : Tallied s
  fits : ∀ t x, (s.pc t).sweep = some x → x.Fits

theorem Inv.count_le (h : Inv s) (q : ℕ) : (s.d.count q).toNat ≤ s.d.existing.length := by
  obtain ⟨S, hS, hcard⟩ := h.tallied.books q
  have hsub : S ⊆ s.d.existing.toFinset := by
    intro a ha
    have hlt : a < s.d.fresh ∧ a ∉ s.d.reclaim := by
      rcases (hS a).mp ha with ⟨howner, -⟩ | ⟨t, hu⟩
      · refine ⟨h.owned a (by simp [howner]), fun hr => ?_⟩
        have hpoison := (h.tallied.reclaimed a hr).1
        simp [howner] at hpoison
      · exact ⟨h.node t a (Pc.node_of_update hu), fun hr => (h.tallied.reclaimed a hr).2 t _ hu rfl⟩
    simp only [Dcache.existing, List.mem_toFinset, List.mem_filter, List.mem_range, decide_eq_true_eq]
    exact ⟨hlt.1, fun hf => hlt.2 (h.freed a hf)⟩
  calc (s.d.count q).toNat = S.card % 2 ^ 64 := by rw [hcard, BitVec.toNat_ofNat]
    _ ≤ S.card := Nat.mod_le _ _
    _ ≤ s.d.existing.toFinset.card := Finset.card_le_card hsub
    _ ≤ s.d.existing.length := List.toFinset_card_le _

theorem Inv.init : Inv (init n) where
  node := by simp [Sys.init, Pc.node]
  published := fun a ha => (of_decide_eq_true ha : a = root) ▸ Nat.zero_lt_one
  owned := by simp [Sys.init, dcCreate]
  freed := by simp [Sys.init, dcCreate]
  tallied := .init
  fits := by simp [Sys.init, Pc.sweep]

theorem Inv.advance (h : Inv s) (hc : Change s.d (s.pc t) d' pc') (hk : Keeps s.d (s.pc t) d' pc')
    (hok : ∀ a, (s.pc t).commits = some a → ∀ t' u, (s.pc t').update = some u → u.node ≠ a)
    (hfits : ∀ x, pc'.sweep = some x → x.Fits) : Inv ⟨d', update s.pc t pc'⟩ := by
  have hpc : ∀ {α : Type} (f : Pc → Option α) (t' : Fin n) (x : α),
      f (update s.pc t pc' t') = some x → f (s.pc t') = some x ∨ f pc' = some x := by
    intro α f t' x hx
    rcases eq_or_ne t' t with rfl | hne
    · rw [update_self] at hx
      exact .inr hx
    · rw [update_of_ne hne] at hx
      exact .inl hx
  have hown : ∀ a, d'.owner a ≠ .off → a < s.d.fresh := fun a ha =>
    (hc.owned ha).elim (h.owned a) (h.node t a)
  constructor
  case node =>
    intro t' a ha
    rcases hpc Pc.node t' a ha with ha | ha
    · exact (h.node t' a ha).trans_le hk.fresh
    · rcases hk.node a ha with ha | ha | ha
      · exact (h.node t a ha).trans_le hk.fresh
      · exact (h.published a ha).trans_le hk.fresh
      · exact ha
  case published =>
    intro a ha
    rcases hk.published a ha with ha | ha | ha
    · exact (h.published a ha).trans_le hk.fresh
    · exact (h.node t a ha).trans_le hk.fresh
    · exact ha
  case owned => exact fun a ha => (hown a ha).trans_le hk.fresh
  case freed =>
    intro a ha
    have ha : a ∈ s.d.reclaim := h.freed a (hk.freed ▸ ha)
    exact hc.reclaim_mono ha
  case tallied => exact h.tallied.step hc hok
  case fits =>
    intro t' x hx
    rcases hpc Pc.sweep t' x hx with hx | hx
    · exact h.fits t' x hx
    · exact hfits x hx

theorem Inv.call {c : Call} (h : Inv s) (hidle : s.pc t = .idle) (hadm : s.admits c = true) :
    Inv { s with pc := update s.pc t c.start } := by
  have howes : c.start.owes = (none, none) := by cases c <;> rfl
  have hnode : ∀ a, c.start.node = some a → s.d.published a = true := by
    intro a ha
    cases c with
    | retain =>
      cases ha
      exact (Bool.and_eq_true _ _ ▸ hadm).1
    | del =>
      cases ha
      exact hadm
    | _ => cases ha
  have hsweep : c.start.sweep = none := by cases c <;> rfl
  apply h.advance
  · exact .still none rfl (hidle ▸ rfl) howes
  · exact .of_eq rfl rfl rfl fun a ha => .inr (hnode a ha)
  · simp [hidle, Pc.commits]
  · simp [hsweep]

theorem Inv.act {x : Act n} (h : Inv s) (hok : s.Orderly x)
    (hact : Sys.act e s x = some s') : Inv s' := by
  cases x with
  | call =>
    simp only [Sys.act] at hact
    split_ifs at hact with hadm
    cases hact
    exact h.call hadm.1 hadm.2
  | step t =>
    obtain ⟨⟨d', pc'⟩, hs, rfl⟩ := map_eq_some_iff.mp hact
    obtain ⟨hc, hk⟩ := step_change hs
    exact h.advance hc hk hok (step_fits hs h.count_le (h.fits t))
  | free =>
    simp only [Sys.act] at hact
    split_ifs at hact with hr
    cases hact
    obtain ⟨hnode, hpub, hown, hfreed, ⟨hinc, hdec, hone, hdead, hrec, hbooks⟩, hfits⟩ := h
    refine ⟨hnode, hpub, hown, fun x hx => ?_, ⟨hinc, hdec, hone, hdead, hrec, hbooks⟩, hfits⟩
    rcases List.mem_cons.mp hx with rfl | hx
    · exact hr.1
    · exact hfreed x hx

end Sys

section Turns

def Sweep.left (x : Sweep) : ℕ :=
  x.budget.toNat - x.scanned.toNat

/-- A turn of a pass that evicts nothing is six steps; these are the ones to its end. -/
def Pc.turn : Pc → Option (Sweep × ℕ)
  | .loop x => some (x, 0)
  | .head x => some (x, 5)
  | .visit x _ => some (x, 4)
  | .kids x _ => some (x, 3)
  | .evict x _ => some (x, 2)
  | .rotate x => some (x, 1)
  | _ => none

theorem step_loop {x : Sweep} (hs : step e d (.loop x) ok = some (d', pc')) :
    pc' = .shard { x with i := x.i + 1 } ∨ x.scanned < x.budget ∧ ∃ y, pc' = .head y ∧
      y.i = x.i ∧ y.budget = x.budget ∧ y.scanned.toNat = x.scanned.toNat + 1 := by
  simp only [step] at hs
  split_ifs at hs with hlt <;> cases hs
  · exact .inr ⟨hlt.2, _, rfl, rfl, rfl, by have := hlt.2; bv_omega⟩
  · exact .inl rfl

theorem step_turn {x : Sweep} {j : ℕ} (hs : step e d pc ok = some (d', pc'))
    (hturn : pc.turn = some (x, j))
    (hspare : ∀ y v, pc = .evict y v → (ok && d.removable v) = false) :
    (∃ y, pc' = .shard y ∧ y.i = x.i + 1) ∨ ∃ y k, pc'.turn = some (y, k) ∧ y.i = x.i ∧
      6 * y.left + k < 6 * x.left + j := by
  cases pc with
  | loop =>
    cases hturn
    rcases step_loop hs with rfl | ⟨hlt, y, rfl, hi, hb, hscan⟩
    · exact .inl ⟨_, rfl, rfl⟩
    · refine .inr ⟨y, 5, rfl, hi, ?_⟩
      have hlt : x.scanned.toNat < x.budget.toNat := hlt
      rw [Sweep.left, Sweep.left, hb, hscan]
      omega
  | head =>
    cases hturn
    simp only [step] at hs
    split at hs <;> cases hs
    · exact .inl ⟨_, rfl, rfl⟩
    · exact .inr ⟨x, 4, rfl, rfl, by omega⟩
  | visit | kids =>
    cases hturn
    simp only [step] at hs
    split_ifs at hs <;> cases hs <;> exact .inr ⟨x, _, rfl, rfl, by omega⟩
  | evict y v =>
    cases hturn
    simp only [step, hspare x v rfl, Bool.false_eq_true, if_false] at hs
    split_ifs at hs
    cases hs
    exact .inr ⟨x, 1, rfl, rfl, by omega⟩
  | rotate =>
    cases hturn
    cases hs
    exact .inr ⟨x, 0, rfl, rfl, by omega⟩
  | _ => cases hturn

variable {n : ℕ} {s s' : Sys n} {t : Fin n}

def Act.of (t : Fin n) : Act n → Bool
  | .step u _ => u = t
  | _ => false

/-- The action is no eviction by thread `t`. -/
def Sys.spares (s : Sys n) (t : Fin n) : Act n → Bool
  | .step u ok =>
    match s.pc t with
    | .evict _ v => u ≠ t || !(ok && s.d.removable v)
    | _ => true
  | _ => true

def Sys.Away (t : Fin n) (i : ℕ) (s : Sys n) (k : ℕ) : Prop :=
  ∃ x j, (s.pc t).turn = some (x, j) ∧ x.i = i ∧ 6 * x.left + j = k

theorem Sys.Away.act {a : Act n} {i k : ℕ} (h : s.Away t i k)
    (ha : guarded (Sys.act e) (fun s a => s.spares t a) s a = some s') :
    if a.of t then (∃ y, s'.pc t = .shard y ∧ y.i = i + 1) ∨ ∃ j < k, s'.Away t i j
    else s'.Away t i k := by
  obtain ⟨x, j, hturn, rfl, rfl⟩ := h
  unfold guarded at ha
  split_ifs at ha with hspare
  cases a with
  | call u c =>
    simp only [Sys.act] at ha
    split_ifs at ha with hok
    cases ha
    have hne : t ≠ u := by
      rintro rfl
      rw [hok.1] at hturn
      cases hturn
    exact ⟨x, j, by simpa only [update_of_ne hne] using hturn, rfl, rfl⟩
  | free =>
    simp only [Sys.act] at ha
    split_ifs at ha
    cases ha
    exact ⟨x, j, hturn, rfl, rfl⟩
  | step u ok =>
    obtain ⟨⟨d', pc'⟩, hs, rfl⟩ := map_eq_some_iff.mp ha
    simp only [Act.of, decide_eq_true_eq]
    split_ifs with hu
    · subst hu
      have hno : ∀ y v, s.pc u = .evict y v → (ok && s.d.removable v) = false := by
        intro y v hpc
        rw [Sys.spares, hpc] at hspare
        simpa only [ne_eq, not_true_eq_false, decide_false, Bool.false_or, Bool.not_eq_true'] using hspare
      simp only [Sys.Away, update_self]
      rcases step_turn hs hturn hno with hout | ⟨y, k, hy, hi, hlt⟩
      · exact .inl hout
      · exact .inr ⟨_, hlt, y, k, hy, hi, rfl⟩
    · exact ⟨x, j, by simpa only [update_of_ne (Ne.symm hu)] using hturn, rfl, rfl⟩

end Turns

/-- In every run in which no commit about a node overtakes a count update for it, a count is at
most the number of dentries that exist, and so is the budget a pass loads. Each turn of the pass
adds one to `scanned` or ends at the next shard, and a pass that evicts nothing comes to the next
shard in as many turns, of six steps each, as its budget says. -/
theorem budget_within_existing {n : ℕ} {s : Sys n}
    (hr : Reach (Sys.act e) Sys.Orderly (Sys.init n) s) :
    (∀ q, (s.d.count q).toNat ≤ s.d.existing.length) ∧
      (∀ t x, (s.pc t).sweep = some x → x.scanned ≤ x.budget ∧ x.budget.toNat ≤ x.existed) ∧
      ∀ t x, s.pc t = .loop x →
        (∀ ok s', Sys.act e s (.step t ok) = some s' → s'.pc t = .shard { x with i := x.i + 1 } ∨
          x.scanned < x.budget ∧ ∃ y, s'.pc t = .head y ∧ y.i = x.i ∧ y.budget = x.budget ∧
            y.scanned.toNat = x.scanned.toNat + 1) ∧
        ∀ as s', exec (guarded (Sys.act e) fun s a => s.spares t a) s as = some s' →
          6 * x.budget.toNat < as.countP (Act.of t) → ∃ pre s₁, pre <+: as ∧
            exec (guarded (Sys.act e) fun s a => s.spares t a) s pre = some s₁ ∧
            ∃ y, s₁.pc t = .shard y ∧ y.i = x.i + 1 := by
  have h : s.Inv := hr.invariant .init fun _ _ _ h hok hact => h.act hok hact
  refine ⟨h.count_le, h.fits, fun t x hx => ⟨fun ok s' ha => ?_, fun as s' he hlt => ?_⟩⟩
  · obtain ⟨⟨d', pc'⟩, hs, rfl⟩ := map_eq_some_iff.mp ha
    rw [hx] at hs
    simpa only [update_self] using step_loop hs
  · have haway : s.Away t x.i (6 * x.left + 0) := ⟨x, 0, by rw [hx]; rfl, rfl, rfl⟩
    refine exec_meets (Act.of t) (fun s a s' k hk ha => hk.act ha) haway he ?_
    have : x.left ≤ x.budget.toNat := Nat.sub_le ..
    omega

/-- Thread `t` adds a dentry to shard 0 and one below it to shard 1, and thread `u` starts a pass
over shard 0. -/
def passOverParent {n : ℕ} (t u : Fin n) : List (Act n) :=
  .call t (.add root 0) :: List.replicate 3 (.step t true) ++
    .call t (.add 1 1) :: List.replicate 3 (.step t true) ++ [.call u (.shrink 1 0 1), .step u true]

/-- The pass meets an entry with a child and goes on to the next shard. -/
theorem budget_within_existing_parent :
    ∃ (s : Sys 3) (x : Sweep), Reach (Sys.act .txn) Sys.Orderly (Sys.init 3) s ∧
      s.pc 2 = .loop x ∧ x.budget = 1 ∧ x.existed = 3 ∧
      ((∀ q, (s.d.count q).toNat ≤ s.d.existing.length) ∧
        x.scanned ≤ x.budget ∧ x.budget.toNat ≤ x.existed) ∧
      ∃ pre s₁, pre <+: List.replicate 7 (.step 2 true) ∧
        exec (guarded (Sys.act .txn) fun s a => s.spares 2 a) s pre = some s₁ ∧
        ∃ y, s₁.pc 2 = .shard y ∧ y.i = x.i + 1 := by
  have he : (exec (guarded (Sys.act .txn) Sys.Orderly) (Sys.init 3) (passOverParent 0 2)).map (fun s =>
      (s.pc 2, (exec (guarded (Sys.act .txn) fun s a => s.spares 2 a) s
        (List.replicate 7 (.step 2 true))).isSome)) =
      some (.loop ⟨0, 1, 1, 0, 0, 1, 3⟩, true) := by
    rfl
  obtain ⟨s, hr, hs⟩ := reach_exec_map he
  obtain ⟨hx, hrun⟩ := Prod.mk.inj hs
  obtain ⟨s', he'⟩ := isSome_iff_exists.mp hrun
  obtain ⟨hcount, hfits, hloop⟩ := budget_within_existing hr.of_guarded
  refine ⟨s, _, hr.of_guarded, hx, rfl, rfl, ⟨hcount, hfits 2 _ (by rw [hx]; rfl)⟩, ?_⟩
  exact (hloop 2 _ hx).2 _ s' he' (by decide)

/-- Thread `t` adds a dentry to shard 0 and takes two steps of the add, thread `u` kills it, and
thread `v` starts a pass over the shard. -/
def killBeforeCount {n : ℕ} (t u v : Fin n) : List (Act n) :=
  .call t (.add root 0) :: List.replicate 2 (.step t true) ++
    .call u (.kill 1) :: List.replicate 4 (.step u true) ++ [.call v (.shrink 1 0 1), .step v true]

/-- The count of shard 0, the number of dentries, and the budget of thread `t`'s pass. -/
def shardZero {n : ℕ} (t : Fin n) (s : Sys n) : ℕ × ℕ × Option (ℕ × ℕ) :=
  ((s.d.count 0).toNat, s.d.existing.length,
    (s.pc t).sweep.map fun x => (x.budget.toNat, x.existed))

/-- The kill comes between the push and its count: the count wraps, and with it the budget. -/
theorem kill_before_count_wraps_budget :
    ∃ s : Sys 3, Reach (Sys.act .txn) (fun _ _ => True) (Sys.init 3) s ∧
      shardZero 2 s = (2 ^ 64 - 1, 2, some (2 ^ 64 - 1, 2)) := by
  have he : (exec (Sys.act .txn) (Sys.init 3) (killBeforeCount 0 1 2)).map (shardZero 2) =
      some (2 ^ 64 - 1, 2, some (2 ^ 64 - 1, 2)) := by
    rfl
  exact reach_exec_map he

end TrieBenchmark.LruDeque
