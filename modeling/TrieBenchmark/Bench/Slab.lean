import TrieBenchmark.Lib.Run
import Mathlib.Algebra.Group.Nat.Defs
import Mathlib.Logic.Function.Basic

/-!
The per-CPU slab of the list benchmark: arenas with a list of recycled objects and a bump pointer
into aligned superblocks; a free finds the arena from the address.
-/

namespace TrieBenchmark.Bench.Pcpu

open Option List Function Run

def rangeSize : ℕ := 2 ^ 24

def roundUp (v a : ℕ) : ℕ := (v + a - 1) / a * a

def headerSize : ℕ := 24

def firstOffset : ℕ := roundUp headerSize 16

def objSize (size : ℕ) : ℕ := roundUp (if size < 16 then 16 else size) 16

def superblock (p : ℕ) : ℕ := p / rangeSize * rangeSize

structure Slab where
  flist : ℕ → ℕ
  sb : ℕ → ℕ
  /-- The headers of the superblocks, by their base. -/
  owner : ℕ → Option ℕ
  bump : ℕ → ℕ
  /-- The first word of each object: the link of one on a list. -/
  word : ℕ → ℕ
  live : List ℕ

inductive Act where
  /-- An allocation by a thread of arena `d`; a new superblock is cut from the mapping at `raw`. -/
  | alloc (d raw : ℕ)
  | free (p : ℕ)
  /-- The program stores to the first word of an object it has. -/
  | write (p v : ℕ)

def Slab.init : Slab := ⟨fun _ => 0, fun _ => 0, fun _ => none, fun _ => 0, fun _ => 0, []⟩

/-- `mmap` gave twice the range at `raw`, clear of what is mapped. -/
def Slab.Maps (s : Slab) (raw : ℕ) : Prop :=
  0 < raw ∧ ∀ b, s.owner b ≠ none → b + rangeSize ≤ raw ∨ raw + 2 * rangeSize ≤ b

def Slab.sbNew (s : Slab) (d raw : ℕ) : Slab :=
  let base := roundUp raw rangeSize
  { s with
    owner := update s.owner base (some d)
    bump := update s.bump base firstOffset
    sb := update s.sb d base }

def Slab.bumpAlloc (s : Slab) (obj d : ℕ) : Slab :=
  { s with
    bump := update s.bump (s.sb d) (s.bump (s.sb d) + obj)
    live := (s.sb d + s.bump (s.sb d)) :: s.live }

/-- A step; whether `mmap` may give `raw` is the caller's to know. -/
def Slab.act (obj : ℕ) (s : Slab) : Act → Option Slab
  | .alloc d raw =>
    if s.flist d ≠ 0 then
      some { s with flist := update s.flist d (s.word (s.flist d)), live := s.flist d :: s.live }
    else if s.sb d = 0 ∨ rangeSize < s.bump (s.sb d) + obj then
      some ((s.sbNew d raw).bumpAlloc obj d)
    else some (s.bumpAlloc obj d)
  | .free p =>
    if p ∈ s.live then
      match s.owner (superblock p) with
      | none => none
      | some a =>
        some { s with
          word := update s.word p (s.flist a)
          flist := update s.flist a p
          live := s.live.erase p }
    else none
  | .write p v => if p ∈ s.live then some { s with word := update s.word p v } else none

def Fresh (s : Slab) : Act → Prop
  | .alloc _ raw => s.Maps raw
  | _ => True

def Linked (word : ℕ → ℕ) : ℕ → List ℕ → Prop
  | head, [] => head = 0
  | head, p :: l => head = p ∧ p ≠ 0 ∧ Linked word (word p) l

theorem Linked.congr {word word' : ℕ → ℕ} {head : ℕ} {l : List ℕ} (h : Linked word head l)
    (he : ∀ p ∈ l, word' p = word p) : Linked word' head l := by
  induction l generalizing head with
  | nil => exact h
  | cons p l ih =>
    obtain ⟨hp, h0, hl⟩ := h
    refine ⟨hp, h0, ?_⟩
    rw [he p mem_cons_self]
    exact ih hl fun q hq => he q (mem_cons_of_mem p hq)

theorem superblock_of {b p : ℕ} (hb : rangeSize ∣ b) (hle : b ≤ p) (hlt : p < b + rangeSize) :
    superblock p = b := by
  obtain ⟨m, rfl⟩ := hb
  have hm : p / rangeSize = m := Nat.div_eq_of_lt_le (by rwa [Nat.mul_comm])
    (by rwa [Nat.succ_mul, Nat.mul_comm])
  rw [superblock, hm, Nat.mul_comm]

theorem roundUp_range (raw : ℕ) : rangeSize ∣ roundUp raw rangeSize ∧
    raw ≤ roundUp raw rangeSize ∧ roundUp raw rangeSize < raw + rangeSize := by
  refine ⟨Nat.dvd_mul_left _ _, ?_⟩
  unfold roundUp rangeSize
  omega

def Slab.Slot (s : Slab) (obj p b : ℕ) : Prop :=
  s.owner b ≠ none ∧ ∃ k, p = b + firstOffset + k * obj ∧
    firstOffset + (k + 1) * obj ≤ s.bump b

structure Slab.Inv (s : Slab) (obj : ℕ) (F : ℕ → List ℕ) : Prop where
  blocks : ∀ b, s.owner b ≠ none → (0 < b ∧ rangeSize ∣ b) ∧
    s.bump b ≤ rangeSize ∧ ∃ n, s.bump b = firstOffset + n * obj
  current : ∀ a, s.sb a ≠ 0 → s.owner (s.sb a) = some a
  live : ∀ p ∈ s.live, ∃ b, s.Slot obj p b
  listed : ∀ a, ∀ p ∈ F a, ∃ b, s.Slot obj p b ∧ s.owner b = some a
  apart : ∀ a, ∀ p ∈ F a, p ∉ s.live
  linked : ∀ a, Linked s.word (s.flist a) (F a)
  nodup : s.live.Nodup ∧ ∀ a, (F a).Nodup

namespace Slab.Inv

variable {obj p q b c d raw : ℕ} {s : Slab} {F : ℕ → List ℕ}

theorem bounds (hI : s.Inv obj F) (h : s.Slot obj p b) :
    b + firstOffset ≤ p ∧ p + obj ≤ b + s.bump b ∧ b + s.bump b ≤ b + rangeSize := by
  obtain ⟨ho, k, rfl, hk⟩ := h
  have hle := (hI.blocks b ho).2.1
  rw [Nat.succ_mul] at hk
  omega

theorem superblock_eq (hI : s.Inv obj F) (hobj : 0 < obj) (h : s.Slot obj p b) :
    superblock p = b := by
  obtain ⟨h₁, h₂, h₃⟩ := hI.bounds h
  exact superblock_of (hI.blocks b h.1).1.2 (by omega) (by omega)

theorem owner_eq (hI : s.Inv obj F) (hobj : 0 < obj) (h : p ∈ F c) :
    s.owner (superblock p) = some c := by
  obtain ⟨b, hb, ho⟩ := hI.listed c p h
  rw [hI.superblock_eq hobj hb, ho]

theorem slots_apart (hI : s.Inv obj F) (hobj : 0 < obj) (hp : s.Slot obj p b)
    (hq : s.Slot obj q c) (hne : p ≠ q) : p + obj ≤ q ∨ q + obj ≤ p := by
  rcases eq_or_ne b c with rfl | hbc
  · obtain ⟨-, k, rfl, -⟩ := hp
    obtain ⟨-, k', rfl, -⟩ := hq
    rcases Nat.lt_trichotomy k k' with hlt | rfl | hlt
    · have hle := Nat.mul_le_mul_right obj hlt
      rw [Nat.succ_mul] at hle
      omega
    · exact absurd rfl hne
    · have hle := Nat.mul_le_mul_right obj hlt
      rw [Nat.succ_mul] at hle
      omega
  · obtain ⟨h₁, h₂, h₃⟩ := hI.bounds hp
    obtain ⟨h₄, h₅, h₆⟩ := hI.bounds hq
    obtain ⟨m, rfl⟩ := (hI.blocks b hp.1).1.2
    obtain ⟨n, rfl⟩ := (hI.blocks c hq.1).1.2
    have hmn : m ≠ n := fun he => hbc (he ▸ rfl)
    unfold rangeSize at *
    omega

theorem init : Slab.init.Inv obj fun _ => [] :=
  ⟨nofun, fun _ h => absurd rfl h, nofun, nofun, nofun, fun _ => rfl, nodup_nil,
    fun _ => nodup_nil⟩

theorem reuse (hI : s.Inv obj F) (hobj : 0 < obj) {l : List ℕ} (hl : F d = p :: l) :
    ({ s with flist := update s.flist d (s.word p), live := p :: s.live } : Slab).Inv obj
      (update F d l) := by
  have hp : p ∈ F d := hl ▸ mem_cons_self
  have hnd := hI.nodup.2 d
  rw [hl, nodup_cons] at hnd
  have hsub : ∀ a, ∀ q ∈ update F d l a, q ∈ F a ∧ q ≠ p := by
    intro a q hq
    rcases eq_or_ne a d with rfl | hne
    · rw [update_self] at hq
      exact ⟨hl ▸ mem_cons_of_mem p hq, fun he => hnd.1 (he ▸ hq)⟩
    · rw [update_of_ne hne] at hq
      refine ⟨hq, ?_⟩
      rintro rfl
      have he := hI.owner_eq hobj hq
      rw [hI.owner_eq hobj hp] at he
      exact hne (some.inj he).symm
  refine ⟨hI.blocks, hI.current, fun q hq => ?_, fun a q hq => hI.listed a q (hsub a q hq).1,
    fun a q hq => ?_, fun a => ?_, ?_, fun a => ?_⟩
  · rcases mem_cons.mp hq with rfl | hq
    · obtain ⟨b, hb, -⟩ := hI.listed d q hp
      exact ⟨b, hb⟩
    · exact hI.live q hq
  · obtain ⟨hm, hne⟩ := hsub a q hq
    simpa [hne] using hI.apart a q hm
  · have hlink := hI.linked a
    rcases eq_or_ne a d with rfl | hne
    · rw [hl] at hlink
      simpa using hlink.2.2
    · simpa [hne] using hlink
  · exact nodup_cons.mpr ⟨hI.apart d p hp, hI.nodup.1⟩
  · rcases eq_or_ne a d with rfl | hne
    · simpa using hnd.2
    · simpa [hne] using hI.nodup.2 a

theorem bump (hI : s.Inv obj F) (hobj : 0 < obj) (hd : s.sb d ≠ 0)
    (hroom : s.bump (s.sb d) + obj ≤ rangeSize) : (s.bumpAlloc obj d).Inv obj F := by
  have howner := hI.current d hd
  have ho : s.owner (s.sb d) ≠ none := by simp [howner]
  obtain ⟨hbase, -, n, hn⟩ := hI.blocks _ ho
  have hslot : ∀ {q c}, s.Slot obj q c → (s.bumpAlloc obj d).Slot obj q c := by
    rintro q c ⟨hc, k, hq, hk⟩
    refine ⟨hc, k, hq, Nat.le_trans hk ?_⟩
    rcases eq_or_ne c (s.sb d) with rfl | hne
    · simp [bumpAlloc]
    · simp [bumpAlloc, hne]
  have hnew : (s.bumpAlloc obj d).Slot obj (s.sb d + s.bump (s.sb d)) (s.sb d) := by
    refine ⟨ho, n, by rw [hn, Nat.add_assoc], ?_⟩
    simp only [bumpAlloc, update_self]
    rw [Nat.succ_mul]
    omega
  have hfresh : ∀ {q c}, s.Slot obj q c → q ≠ s.sb d + s.bump (s.sb d) := by
    rintro q c hq rfl
    obtain ⟨h₁, h₂, h₃⟩ := hI.bounds hq
    obtain rfl : s.sb d = c := by
      rw [← hI.superblock_eq hobj hq, superblock_of hbase.2 (by omega) (by omega)]
    omega
  refine ⟨fun c hc => ?_, hI.current, fun q hq => ?_, fun a q hq => ?_, fun a q hq => ?_, hI.linked,
    nodup_cons.mpr ⟨fun h => ?_, hI.nodup.1⟩, hI.nodup.2⟩
  · rcases eq_or_ne c (s.sb d) with rfl | hne
    · refine ⟨hbase, by simpa [bumpAlloc] using hroom, n + 1, ?_⟩
      simp only [bumpAlloc, update_self]
      rw [Nat.succ_mul]
      omega
    · simpa [bumpAlloc, hne] using hI.blocks c hc
  · rcases mem_cons.mp hq with rfl | hq
    · exact ⟨_, hnew⟩
    · obtain ⟨c, hc⟩ := hI.live q hq
      exact ⟨c, hslot hc⟩
  · obtain ⟨c, hc, hoc⟩ := hI.listed a q hq
    exact ⟨c, hslot hc, hoc⟩
  · obtain ⟨c, hc, -⟩ := hI.listed a q hq
    exact not_mem_cons_of_ne_of_not_mem (hfresh hc) (hI.apart a q hq)
  · obtain ⟨c, hc⟩ := hI.live _ h
    exact hfresh hc rfl

theorem sbNew (hI : s.Inv obj F) (hmap : s.Maps raw) : (s.sbNew d raw).Inv obj F := by
  have hnone : s.owner (roundUp raw rangeSize) = none := by
    by_contra h
    have hoff := hmap.2 _ h
    have hat := (roundUp_range raw).2
    omega
  have hne : ∀ {c}, s.owner c ≠ none → c ≠ roundUp raw rangeSize := by
    rintro c hc rfl
    exact hc hnone
  have hslot : ∀ {q c}, s.Slot obj q c → (s.sbNew d raw).Slot obj q c := by
    rintro q c ⟨hc, hk⟩
    simpa [Slot, Slab.sbNew, hne hc] using ⟨hc, hk⟩
  refine ⟨fun c hc => ?_, fun a ha => ?_, fun q hq => ?_, fun a q hq => ?_, hI.apart, hI.linked,
    hI.nodup⟩
  · rcases eq_or_ne c (roundUp raw rangeSize) with rfl | hcb
    · refine ⟨⟨Nat.lt_of_lt_of_le hmap.1 (roundUp_range raw).2.1, (roundUp_range raw).1⟩, ?_, 0, ?_⟩
      · simp only [Slab.sbNew, update_self]
        decide
      · simp [Slab.sbNew]
    · simp only [Slab.sbNew, update_of_ne hcb] at hc ⊢
      exact hI.blocks c hc
  · rcases eq_or_ne a d with rfl | had
    · simp [Slab.sbNew]
    · simp only [Slab.sbNew, update_of_ne had] at ha ⊢
      have ho := hI.current a ha
      rw [update_of_ne (hne (by simp [ho])), ho]
  · obtain ⟨c, hc⟩ := hI.live q hq
    exact ⟨c, hslot hc⟩
  · obtain ⟨c, hc, ho⟩ := hI.listed a q hq
    refine ⟨c, hslot hc, ?_⟩
    simp [Slab.sbNew, update_of_ne (hne hc.1), ho]

theorem free (hI : s.Inv obj F) (hp : p ∈ s.live) (ho : s.owner (superblock p) = some d)
    (hobj : 0 < obj) :
    ({ s with
        word := update s.word p (s.flist d)
        flist := update s.flist d p
        live := s.live.erase p } : Slab).Inv obj (update F d (p :: F d)) := by
  obtain ⟨b, hb⟩ := hI.live p hp
  have hmem : ∀ {a q}, q ∈ update F d (p :: F d) a → q ∈ F a ∨ a = d ∧ q = p := by
    intro a q hq
    rcases eq_or_ne a d with rfl | hne
    · rw [update_self] at hq
      exact (mem_cons.mp hq).symm.imp_right fun he => ⟨rfl, he⟩
    · rw [update_of_ne hne] at hq
      exact .inl hq
  have hlink : ∀ a, Linked (update s.word p (s.flist d)) (s.flist a) (F a) := fun a =>
    (hI.linked a).congr fun q hq => update_of_ne (fun he : q = p => hI.apart a q hq (he ▸ hp)) _ _
  refine ⟨hI.blocks, hI.current, fun q hq => hI.live q (mem_of_mem_erase hq), fun a q hq => ?_,
    fun a q hq hlive => ?_, fun a => ?_, hI.nodup.1.erase p, fun a => ?_⟩
  · rcases hmem hq with hq | ⟨rfl, rfl⟩
    · exact hI.listed a q hq
    · rw [hI.superblock_eq hobj hb] at ho
      exact ⟨b, hb, ho⟩
  · rcases hmem hq with hq | ⟨rfl, rfl⟩
    · exact hI.apart a q hq (mem_of_mem_erase hlive)
    · exact hI.nodup.1.not_mem_erase hlive
  · rcases eq_or_ne a d with rfl | hne
    · have h0 : p ≠ 0 := by
        have hpos := (hI.blocks b hb.1).1.1
        have hle := (hI.bounds hb).1
        omega
      simpa [Linked, h0] using hlink a
    · simpa [hne] using hlink a
  · rcases eq_or_ne a d with rfl | hne
    · simpa [hI.nodup.2 a] using fun h => hI.apart a p h hp
    · simpa [hne] using hI.nodup.2 a

theorem act {s' : Slab} {a : Act} (hI : s.Inv obj F) (hobj : 0 < obj)
    (hfit : obj ≤ rangeSize - firstOffset) (hfresh : Fresh s a) (ha : s.act obj a = some s') :
    ∃ F', s'.Inv obj F' := by
  cases a with
  | alloc d raw =>
    rw [Slab.act] at ha
    split_ifs at ha with hlist hroom
    · obtain rfl := some.inj ha
      have hlink := hI.linked d
      cases hl : F d with
      | nil =>
        rw [hl] at hlink
        exact absurd hlink hlist
      | cons p l =>
        rw [hl] at hlink
        rw [hlink.1]
        exact ⟨_, hI.reuse hobj hl⟩
    · obtain rfl := some.inj ha
      refine ⟨F, (hI.sbNew hfresh).bump hobj ?_ ?_⟩
      · simp only [Slab.sbNew, update_self]
        exact Nat.ne_of_gt (Nat.lt_of_lt_of_le hfresh.1 (roundUp_range raw).2.1)
      · simp only [Slab.sbNew, update_self]
        have hhead : firstOffset ≤ rangeSize := by decide
        omega
    · obtain rfl := some.inj ha
      exact ⟨F, hI.bump hobj (fun h => hroom (.inl h))
        (Nat.le_of_not_lt fun h => hroom (.inr h))⟩
  | free p =>
    rw [Slab.act] at ha
    split_ifs at ha with hp
    cases ho : s.owner (superblock p) with
    | none =>
      rw [ho] at ha
      cases ha
    | some a =>
      rw [ho] at ha
      obtain rfl := some.inj ha
      exact ⟨_, hI.free hp ho hobj⟩
  | write p v =>
    rw [Slab.act] at ha
    split_ifs at ha with hp
    obtain rfl := some.inj ha
    exact ⟨F, hI.blocks, hI.current, hI.live, hI.listed, hI.apart, fun a =>
      (hI.linked a).congr fun q hq => update_of_ne (fun he : q = p => hI.apart a q hq (he ▸ hp)) _ _,
      hI.nodup⟩

end Slab.Inv

/-- In every state that allocations, frees and stores of the program lead to, the objects it has
are apart, inside a superblock past its header and aligned; and each arena's list ends and holds
objects of superblocks that the arena owns. -/
theorem slab_separates {size : ℕ} {s : Slab} (hfit : objSize size ≤ rangeSize - headerSize)
    (hr : Reach (Slab.act (objSize size)) Fresh .init s) :
    s.live.Nodup ∧
    (∀ p ∈ s.live, ∀ q ∈ s.live, p ≠ q → p + objSize size ≤ q ∨ q + objSize size ≤ p) ∧
    (∀ p ∈ s.live, s.owner (superblock p) ≠ none ∧ superblock p + headerSize ≤ p ∧
      p + objSize size ≤ superblock p + rangeSize ∧ 16 ∣ p) ∧
    ∀ a, ∃ l, Linked s.word (s.flist a) l ∧ ∀ p ∈ l, s.owner (superblock p) = some a := by
  have hobj : 0 < objSize size ∧ 16 ∣ objSize size := by
    unfold objSize roundUp
    split_ifs <;> omega
  have hfit' : objSize size ≤ rangeSize - firstOffset := by
    obtain ⟨m, hm⟩ := hobj.2
    rw [hm] at hfit ⊢
    unfold headerSize at hfit
    unfold firstOffset roundUp headerSize
    unfold rangeSize at *
    omega
  obtain ⟨F, hI⟩ := hr.invariant (P := fun s => ∃ F, s.Inv (objSize size) F)
    ⟨_, .init⟩ fun s a s' ⟨_, hI⟩ hok ha => hI.act hobj.1 hfit' hok ha
  refine ⟨hI.nodup.1, fun p hp q hq hne => ?_, fun p hp => ?_, fun a =>
    ⟨F a, hI.linked a, fun p hp => hI.owner_eq hobj.1 hp⟩⟩
  · obtain ⟨b, hb⟩ := hI.live p hp
    obtain ⟨c, hc⟩ := hI.live q hq
    exact hI.slots_apart hobj.1 hb hc hne
  · obtain ⟨b, hb⟩ := hI.live p hp
    obtain ⟨h₁, h₂, h₃⟩ := hI.bounds hb
    obtain ⟨k, rfl, -⟩ := hb.2
    have hdvd : 16 ∣ b := Nat.dvd_trans (by decide) (hI.blocks b hb.1).1.2
    rw [hI.superblock_eq hobj.1 hb]
    refine ⟨hb.1, Nat.le_trans (Nat.add_le_add_left (by decide) b) h₁, Nat.le_trans h₂ h₃, ?_⟩
    exact Nat.dvd_add (Nat.dvd_add hdvd (by decide)) (Nat.dvd_mul_left_of_dvd hobj.2 k)

/-- One object for each of two arenas. -/
theorem slab_separates_two : ∃ s, Reach (Slab.act (objSize 40)) Fresh .init s ∧
    ∃ p ∈ s.live, ∃ q ∈ s.live, p ≠ q ∧ (p + objSize 40 ≤ q ∨ q + objSize 40 ≤ p) := by
  have h₁ : Fresh .init (.alloc 0 rangeSize) := ⟨by decide, fun _ h => absurd rfl h⟩
  have h₂ : Fresh ((Slab.init.sbNew 0 rangeSize).bumpAlloc (objSize 40) 0)
      (.alloc 1 (2 * rangeSize)) := by
    refine ⟨by decide, fun b hb => .inl ?_⟩
    obtain rfl : b = roundUp rangeSize rangeSize := by
      by_contra hne
      exact hb (update_of_ne hne _ _)
    decide
  have hr : Reach (Slab.act (objSize 40)) Fresh .init
      (((Slab.init.sbNew 0 rangeSize).bumpAlloc (objSize 40) 0 |>.sbNew 1 (2 * rangeSize)).bumpAlloc
        (objSize 40) 1) := .step (.step .start h₁ rfl) h₂ rfl
  have hne : 2 * rangeSize + firstOffset ≠ rangeSize + firstOffset := by decide
  exact ⟨_, hr, _, .head _, _, .tail _ (.head _), hne,
    (slab_separates (by decide) hr).2.1 _ (.head _) _ (.tail _ (.head _)) hne⟩

end TrieBenchmark.Bench.Pcpu
