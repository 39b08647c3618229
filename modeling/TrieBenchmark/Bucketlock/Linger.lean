import TrieBenchmark.Lib.Run
import Mathlib.Data.Finset.Prod
import Mathlib.Data.Finset.Range

/-!
The word `d_linger` of a host: the lingering entries that need it, and its death. Whoever finds
that it was the last to need the host queues its free.
-/

namespace TrieBenchmark.Bucketlock.Linger

open Run

def lingerDead : ℕ := 1

def lingerPin : ℕ := 2

/-- What a lingering entry needs the host for: the entry leads to it, or sits in its list. -/
inductive Role where
  | leads
  | sits
  deriving DecidableEq, Repr

/-- A lingering entry is a dentry, at an address of 64 bits that is a multiple of eight: it is
named by the quotient. -/
def entryMax : ℕ := 2 ^ 61

structure Host where
  /-- `d_linger`, of 64 bits. -/
  word : ℕ
  /-- The pins that no `linger_put` has given back. -/
  pins : Finset (Role × ℕ)
  /-- The host's entry is in the index, or the locks that remove it are held. -/
  entered : Bool
  /-- Callers that have seen the last need go and are about to queue the free. -/
  last : ℕ
  queued : ℕ

inductive Act where
  | pin (p : Role × ℕ)
  | put (p : Role × ℕ)
  | leave
  | freeHost
  | callRcu
  deriving DecidableEq, Repr

def Host.init : Host := ⟨0, ∅, true, 0, 0⟩

def Host.dead (h : Host) : Bool := h.word % lingerPin = lingerDead

def subReturn (w v : ℕ) : ℕ := (w + 2 ^ 64 - v) % 2 ^ 64

def orDead (w : ℕ) : ℕ := if w % lingerPin = lingerDead then w else w + lingerDead

def Host.act (h : Host) : Act → Option Host
  | .pin p =>
    if h.entered ∧ p.2 < entryMax ∧ p ∉ h.pins then
      some { h with word := (h.word + lingerPin) % 2 ^ 64, pins := insert p h.pins }
    else none
  | .put p =>
    if p ∈ h.pins then
      let w := subReturn h.word lingerPin
      some { h with
        word := w
        pins := h.pins.erase p
        last := if w = lingerDead then h.last + 1 else h.last }
    else none
  | .leave => if h.entered then some { h with entered := false } else none
  | .freeHost =>
    if h.entered = false ∧ h.dead = false then
      some { h with
        word := orDead h.word
        last := if lingerPin ≤ h.word then h.last else h.last + 1 }
    else none
  | .callRcu => if 0 < h.last then some { h with last := h.last - 1, queued := h.queued + 1 } else none

/-- The word is the count of the pins and the flag. The free of the host is with one caller, or
queued, iff the host is dead and nothing pins it. -/
structure Host.Inv (h : Host) (dead : Bool) : Prop where
  word : h.word = 2 * h.pins.card + dead.toNat
  left : dead = true → h.entered = false
  fits : ∀ p ∈ h.pins, p.2 < entryMax
  once : h.last + h.queued = if dead ∧ h.pins = ∅ then 1 else 0

theorem Host.Inv.card_le {h : Host} {dead : Bool} (hI : h.Inv dead) : h.pins.card ≤ 2 ^ 62 := by
  have hsub : h.pins ⊆ {.leads, .sits} ×ˢ Finset.range entryMax := fun p hp => by
    rw [Finset.mem_product, Finset.mem_range]
    exact ⟨by cases p.1 <;> decide, hI.fits p hp⟩
  have hle := Finset.card_le_card hsub
  rwa [Finset.card_product, Finset.card_range, entryMax] at hle

section Step

variable {h : Host} {dead : Bool} {p : Role × ℕ}

theorem Host.Inv.dead_eq (hI : h.Inv dead) : h.dead = dead := by
  have hw := hI.word
  unfold Host.dead lingerPin lingerDead
  cases dead <;> simp [hw, Nat.add_mod]

theorem Host.Inv.act {h' : Host} {a : Act} (hI : h.Inv dead) (ha : h.act a = some h') :
    ∃ dead', h'.Inv dead' := by
  obtain ⟨hw, hleft, hfits, honce⟩ := id hI
  have hcard := hI.card_le
  have hbit : dead.toNat ≤ 1 := Bool.toNat_le dead
  cases a with
  | pin p =>
    simp only [Host.act] at ha
    split_ifs at ha with hp
    cases ha
    obtain rfl : dead = false := by
      rw [← Bool.not_eq_true]
      intro hd
      rw [hleft hd] at hp
      cases hp.1
    refine ⟨false, ?_, nofun, fun q hq => ?_, by simpa using honce⟩
    · simp only [Finset.card_insert_of_notMem hp.2.2, hw, lingerPin]
      omega
    · rcases Finset.mem_insert.mp hq with rfl | hq
      · exact hp.2.1
      · exact hfits q hq
  | put p =>
    obtain ⟨hp, ha⟩ := Option.ite_none_right_eq_some.mp ha
    obtain rfl := Option.some.inj ha
    have hpos := Finset.card_pos.mpr ⟨p, hp⟩
    have herase := Finset.card_erase_add_one hp
    have hsub : subReturn h.word lingerPin = 2 * (h.pins.erase p).card + dead.toNat := by
      unfold subReturn lingerPin
      omega
    refine ⟨dead, hsub, hleft, fun q hq => hfits q (Finset.mem_of_mem_erase hq), ?_⟩
    rw [if_neg (by rintro ⟨-, he⟩; simp [he] at hp)] at honce
    have hlast : subReturn h.word lingerPin = lingerDead ↔ dead = true ∧ h.pins.erase p = ∅ := by
      rw [hsub, ← Finset.card_eq_zero, lingerDead]
      cases dead with
      | false => simp
      | true =>
        rw [Bool.toNat_true, eq_self, true_and]
        omega
    simp only [hlast]
    split_ifs <;> omega
  | leave =>
    simp only [Host.act] at ha
    split_ifs at ha
    cases ha
    exact ⟨dead, hw, fun _ => rfl, hfits, honce⟩
  | freeHost =>
    obtain ⟨hgo, ha⟩ := Option.ite_none_right_eq_some.mp ha
    cases ha
    obtain rfl : dead = false := by rw [← hI.dead_eq, hgo.2]
    have heven : ¬ h.word % lingerPin = lingerDead := by simpa [Host.dead] using hgo.2
    have hpin : lingerPin ≤ h.word ↔ h.pins ≠ ∅ := by
      rw [hw, ← Finset.nonempty_iff_ne_empty, ← Finset.card_pos, lingerPin, Bool.toNat_false]
      omega
    refine ⟨true, ?_, fun _ => hgo.1, hfits, ?_⟩
    · simp only [orDead, if_neg heven]
      rw [hw]
      rfl
    · simp only [hpin]
      rw [if_neg (by simp)] at honce
      split_ifs <;> simp_all
  | callRcu =>
    simp only [Host.act] at ha
    split_ifs at ha
    cases ha
    refine ⟨dead, hw, hleft, hfits, ?_⟩
    simp only
    omega

end Step

/-- Over every interleaving of pins, puts and one death: the count is that of the pins not given
back, so that no put goes below 0; the free is queued at most once and only for a dead host without
a pin; and once the host is dead, the pins are back and no caller is about to queue it, it has
been. -/
theorem linger_free_once {h : Host} (hr : Reach Host.act (fun _ _ => True) Host.init h) :
    (h.word / lingerPin = h.pins.card ∧ ∀ p ∈ h.pins, lingerPin ≤ h.word) ∧
      h.last + h.queued ≤ 1 ∧
      (0 < h.last + h.queued → h.dead = true ∧ h.pins = ∅) ∧
      (h.dead = true → h.pins = ∅ → h.last = 0 → h.queued = 1) := by
  obtain ⟨dead, hI⟩ := hr.invariant (P := fun h => ∃ dead, h.Inv dead)
    ⟨false, rfl, nofun, nofun, rfl⟩ fun _ _ _ ⟨_, hI⟩ _ ha => hI.act ha
  have honce := hI.once
  have hbit : dead.toNat ≤ 1 := Bool.toNat_le dead
  rw [hI.dead_eq, hI.word, lingerPin]
  refine ⟨⟨by omega, fun p hp => ?_⟩, ?_, fun hpos => ?_, fun hd hp hl => ?_⟩
  · have hcard := Finset.card_pos.mpr ⟨p, hp⟩
    omega
  · split_ifs at honce <;> omega
  · by_contra hno
    rw [if_neg hno] at honce
    omega
  · rw [if_pos ⟨hd, hp⟩] at honce
    omega

/-- The host dies with one entry leading to it and one sitting in it: the second put frees it. -/
theorem linger_free_once_put : ∃ h, Reach Host.act (fun _ _ => True) Host.init h ∧
    h.dead = true ∧ h.pins = ∅ ∧ h.last = 0 ∧ h.queued = 1 := by
  have he : (exec Host.act .init [.pin (.leads, 4), .pin (.sits, 4), .leave, .put (.sits, 4),
      .freeHost, .put (.leads, 4), .callRcu]).map (fun h => (h.dead, h.pins, h.last)) =
        some (true, ∅, 0) := by
    decide +kernel
  obtain ⟨h, hr, hh⟩ := reach_exec_map he
  simp only [Prod.mk.injEq] at hh
  exact ⟨h, hr, hh.1, hh.2.1, hh.2.2, (linger_free_once hr).2.2.2 hh.1 hh.2.1 hh.2.2⟩

end TrieBenchmark.Bucketlock.Linger
