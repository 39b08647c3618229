import Mathlib.Data.List.Induction
import Mathlib.Data.List.Sort

/-!
The two balance instruments of `skiplist_detect.c`: the audit of every level, and what the descent
of one lookup sees of it.
-/

namespace TrieBenchmark.Bench.SkiplistDetect

open List

def gapMax : ℕ := 3

structure Node where
  key : ℕ
  toplevel : ℕ
  deriving DecidableEq, Repr

def Before (a b : Node) : Prop := a.key < b.key

/-- A quiescent skiplist: `link L` is the chain of `next[L]` from the head. -/
structure Skiplist where
  top : ℕ
  link : ℕ → List Node
  sorted : ∀ L, (link L).Pairwise Before
  below : ∀ L, (link (L + 1)).Sublist (link L)
  tower : ∀ n ∈ link 0, ∀ L, n ∈ link L ↔ L ≤ n.toplevel
  height : ∀ n ∈ link 0, n.toplevel ≤ top

structure Level where
  run : ℕ
  gaps : ℕ
  maxGap : ℕ
  violations : ℕ
  deriving DecidableEq, Repr

def Level.close (w : Level) : Level where
  run := 0
  gaps := w.gaps + 1
  maxGap := if w.maxGap < w.run then w.run else w.maxGap
  violations := if gapMax < w.run then w.violations + 1 else w.violations

def Level.visit (L : ℕ) (w : Level) (cur : Node) : Level :=
  if L + 1 ≤ cur.toplevel then w.close else { w with run := w.run + 1 }

def auditLevel (sl : Skiplist) (L : ℕ) : Level :=
  ((sl.link L).foldl (Level.visit L) ⟨0, 0, 0, 0⟩).close

structure Audit where
  top : ℕ
  nodes : ℕ
  level : ℕ → Level
  totalViolations : ℕ
  worstGap : ℕ

def auditLevels (sl : Skiplist) (a : Audit) : ℕ → Audit
  | 0 => a
  | n + 1 =>
    let a := auditLevels sl a n
    let w := auditLevel sl n
    { a with
      level := fun L => if L = n then w else a.level L
      totalViolations := a.totalViolations + w.violations
      worstGap := if a.worstGap < w.maxGap then w.maxGap else a.worstGap }

def slAudit (sl : Skiplist) : Audit :=
  auditLevels sl ⟨sl.top, (sl.link 0).length, fun _ => ⟨0, 0, 0, 0⟩, 0, 0⟩ sl.top

structure Descent where
  hops : ℕ → ℕ
  maxHops : ℕ
  worstLevel : Option ℕ
  totalHops : ℕ
  tripped : Bool
  found : Bool

def Skiplist.after (sl : Skiplist) (L : ℕ) : Option Node → List Node
  | none => sl.link L
  | some p => ((sl.link L).dropWhile (· ≠ p)).tail

/-- The inner loop: where it stops and how many nodes it stepped over. -/
def hop (key : ℕ) (pred : Option Node) : List Node → Option Node × ℕ
  | [] => (pred, 0)
  | cur :: rest =>
    if cur.key < key then ((hop key (some cur) rest).1, (hop key (some cur) rest).2 + 1)
    else (pred, 0)

def descend (sl : Skiplist) (key : ℕ) (d : Descent) (pred : Option Node) : ℕ → Descent × Option Node
  | 0 => (d, pred)
  | L + 1 =>
    let (p, hops) := hop key pred (sl.after L pred)
    descend sl key
      { d with
        hops := fun l => if l = L then hops else d.hops l
        totalHops := d.totalHops + hops
        maxHops := if d.maxHops < hops then hops else d.maxHops
        worstLevel := if d.maxHops < hops then some L else d.worstLevel
        tripped := d.tripped || decide (gapMax < hops) } p L

def slLookupDetect (sl : Skiplist) (key : ℕ) : Descent :=
  let (d, pred) := descend sl key ⟨fun _ => 0, 0, none, 0, false, false⟩ none (sl.top + 1)
  { d with found := (sl.after 0 pred).head?.any fun cur => cur.key = key }

section Audit

/-- The audit has met `k` nodes in a row: their run is open, or it is accounted for. -/
def Level.Met (w : Level) (k : ℕ) : Prop :=
  k ≤ w.run ∨ k ≤ w.maxGap ∧ (gapMax < k → 1 ≤ w.violations)

variable {w : Level} {k L : ℕ}

theorem Level.Met.close (h : w.Met k) : k ≤ w.close.maxGap ∧ (gapMax < k → 1 ≤ w.close.violations) := by
  simp only [Level.close]
  rcases h with hrun | ⟨hgap, hviol⟩
  · refine ⟨?_, fun hk => ?_⟩
    · split_ifs <;> omega
    · rw [if_pos (by omega)]
      omega
  · refine ⟨?_, fun hk => ?_⟩
    · split_ifs <;> omega
    · have := hviol hk
      split_ifs <;> omega

theorem Level.Met.foldl (h : w.Met k) (ns : List Node) : (ns.foldl (Level.visit L) w).Met k := by
  induction ns generalizing w with
  | nil => exact h
  | cons n ns ih =>
    apply ih
    unfold Level.visit
    split_ifs
    · exact .inr h.close
    · exact h.imp_left fun hle => Nat.le_succ_of_le hle

theorem foldl_interior {ns : List Node} (h : ∀ n ∈ ns, ¬ L + 1 ≤ n.toplevel) :
    (ns.foldl (Level.visit L) w).run = w.run + ns.length := by
  induction ns generalizing w with
  | nil => rfl
  | cons n ns ih =>
    rw [foldl_cons, ih fun m hm => h m (mem_cons_of_mem n hm), Level.visit,
      if_neg (h n mem_cons_self), length_cons]
    simp only
    omega

theorem auditLevel_run {sl : Skiplist} {A B C : List Node} (hlink : sl.link L = A ++ (B ++ C))
    (hA : ∀ p ∈ A.getLast?, L + 1 ≤ p.toplevel) (hB : ∀ n ∈ B, ¬ L + 1 ≤ n.toplevel) :
    B.length ≤ (auditLevel sl L).maxGap ∧
      (gapMax < B.length → 1 ≤ (auditLevel sl L).violations) := by
  have hrun : (A.foldl (Level.visit L) ⟨0, 0, 0, 0⟩).run = 0 := by
    rcases eq_nil_or_concat' A with rfl | ⟨A, p, rfl⟩
    · rfl
    · rw [foldl_append, foldl_cons, foldl_nil, Level.visit,
        if_pos (hA p (by simp))]
      rfl
  apply Level.Met.close
  rw [hlink, foldl_append, foldl_append]
  apply Level.Met.foldl
  left
  rw [foldl_interior hB]
  omega

theorem auditLevels_level {sl : Skiplist} (a : Audit) {n : ℕ} (h : L < n) :
    (auditLevels sl a n).level L = auditLevel sl L ∧
      (auditLevel sl L).violations ≤ (auditLevels sl a n).totalViolations := by
  induction n with
  | zero => omega
  | succ n ih =>
    simp only [auditLevels]
    by_cases hL : L = n
    · subst hL
      simp
    · rw [if_neg hL]
      obtain ⟨hlevel, hviol⟩ := ih (by omega)
      exact ⟨hlevel, by omega⟩

end Audit

section Descent

theorem exists_last_filter (p : Node → Bool) (l : List Node) :
    ∃ A B, l = A ++ B ∧ (∀ n ∈ B, p n = false) ∧ A.getLast? = (l.filter p).getLast? := by
  induction l using List.reverseRecOn with
  | nil => exact ⟨[], [], rfl, nofun, rfl⟩
  | append_singleton l n ih =>
    cases hn : p n with
    | true => exact ⟨l ++ [n], [], by simp, nofun, by simp [hn]⟩
    | false =>
      obtain ⟨A, B, rfl, hB, hlast⟩ := ih
      refine ⟨A, B ++ [n], by simp, fun m hm => ?_, by simpa [hn] using hlast⟩
      rcases mem_append.mp hm with hm | hm
      · exact hB m hm
      · rwa [mem_singleton.mp hm]

variable (sl : Skiplist) (key L : ℕ)

def Skiplist.before : List Node := (sl.link L).filter fun n => n.key < key

variable {sl key L}

theorem Skiplist.link_succ : sl.link (L + 1) = (sl.link L).filter fun n => L + 1 ≤ n.toplevel := by
  have : Std.Antisymm Before := ⟨fun _ _ h h' => absurd h (Nat.lt_asymm h')⟩
  have : Std.Irrefl Before := ⟨fun _ => Nat.lt_irrefl _⟩
  have hzero : ∀ L, sl.link L ⊆ sl.link 0 := by
    intro L
    induction L with
    | zero => exact List.Subset.refl _
    | succ L ih => exact List.Subset.trans (sl.below L).subset ih
  refine List.Subset.antisymm_of_pairwise (sl.sorted _) ((sl.sorted L).filter _) ?_ ?_
  · intro n hn
    have h0 := hzero _ hn
    exact mem_filter.mpr ⟨(sl.below L).subset hn, by simpa using (sl.tower n h0 _).mp hn⟩
  · intro n hn
    obtain ⟨hn, hlevel⟩ := mem_filter.mp hn
    exact (sl.tower n (hzero L hn) _).mpr (by simpa using hlevel)

theorem Skiplist.before_succ :
    sl.before key (L + 1) = (sl.before key L).filter fun n => L + 1 ≤ n.toplevel := by
  unfold before
  rw [sl.link_succ, filter_filter, filter_filter]
  simp only [Bool.and_comm]

theorem exists_split {l : List Node} (hs : l.Pairwise Before) :
    ∃ C, l = l.filter (fun n => n.key < key) ++ C ∧ ∀ n ∈ C, key ≤ n.key := by
  induction l with
  | nil => exact ⟨[], rfl, nofun⟩
  | cons a l ih =>
    rw [pairwise_cons] at hs
    by_cases ha : a.key < key
    · obtain ⟨C, hl, hC⟩ := ih hs.2
      refine ⟨C, ?_, hC⟩
      rw [filter_cons_of_pos (by simpa using ha), cons_append, ← hl]
    · have hle : ∀ n ∈ a :: l, key ≤ n.key := by
        intro n hn
        rcases mem_cons.mp hn with rfl | hn
        · omega
        · have hlt : a.key < n.key := hs.1 n hn
          omega
      refine ⟨a :: l, ?_, hle⟩
      rw [filter_eq_nil_iff.mpr (by simpa using hle), nil_append]

theorem hop_eq {B C : List Node} (pred : Option Node) (hB : ∀ n ∈ B, n.key < key)
    (hC : ∀ n ∈ C, key ≤ n.key) : hop key pred (B ++ C) = (B.getLast?.or pred, B.length) := by
  induction B generalizing pred with
  | nil =>
    cases C with
    | nil => rfl
    | cons c C =>
      rw [nil_append, hop, if_neg (Nat.not_lt.mpr (hC c mem_cons_self))]
      rfl
  | cons b B ih =>
    rw [cons_append, hop, if_pos (hB b mem_cons_self),
      ih _ fun n hn => hB n (mem_cons_of_mem b hn)]
    cases B with
    | nil => rfl
    | cons b' B => simp [List.getLast?_cons]

theorem Skiplist.after_eq {A R : List Node} (h : sl.link L = A ++ R) :
    sl.after L A.getLast? = R := by
  rcases eq_nil_or_concat' A with rfl | ⟨A, p, rfl⟩
  · exact h
  · have hs := sl.sorted L
    rw [h, append_assoc, pairwise_append] at hs
    have hA : ∀ n ∈ A, decide (n ≠ p) = true := by
      intro n hn
      have hlt : n.key < p.key := hs.2.2 n hn p (by simp)
      simp only [decide_eq_true_eq]
      rintro rfl
      exact Nat.lt_irrefl _ hlt
    rw [List.getLast?_concat, after, h, append_assoc, dropWhile_append_of_pos hA]
    simp

theorem hop_level : ∃ k, hop key (sl.before key (L + 1)).getLast?
      (sl.after L (sl.before key (L + 1)).getLast?) = ((sl.before key L).getLast?, k) ∧
    k ≤ (auditLevel sl L).maxGap ∧ (gapMax < k → 1 ≤ (auditLevel sl L).violations) := by
  obtain ⟨C, hlink, hC⟩ : ∃ C, sl.link L = sl.before key L ++ C ∧ ∀ n ∈ C, key ≤ n.key :=
    exists_split (sl.sorted L)
  obtain ⟨A, B, hAB, hB, hlast⟩ := exists_last_filter (fun n => L + 1 ≤ n.toplevel)
    (sl.before key L)
  rw [← sl.before_succ] at hlast
  rw [hAB, append_assoc] at hlink
  have hlt : ∀ n ∈ B, n.key < key := fun n hn => by
    have hmem : n ∈ sl.before key L := hAB ▸ mem_append_right A hn
    simpa using (mem_filter.mp hmem).2
  refine ⟨B.length, ?_, auditLevel_run hlink (fun p hp => ?_) fun n hn => by simpa using hB n hn⟩
  · rw [← hlast, sl.after_eq hlink, hop_eq _ hlt hC, hAB, List.getLast?_append]
  · rw [hlast, sl.before_succ] at hp
    simpa using (mem_filter.mp (mem_of_getLast? hp)).2

theorem descend_level (d : Descent) (n : ℕ) :
    ∃ d', descend sl key d (sl.before key n).getLast? n = (d', (sl.before key 0).getLast?) ∧
      (∀ L < n, d'.hops L ≤ (auditLevel sl L).maxGap) ∧ (∀ L, n ≤ L → d'.hops L = d.hops L) ∧
      (d'.tripped = true → d.tripped = true ∨ ∃ L < n, 1 ≤ (auditLevel sl L).violations) := by
  induction n generalizing d with
  | zero => exact ⟨d, rfl, nofun, fun _ _ => rfl, .inl⟩
  | succ n ih =>
    obtain ⟨k, hhop, hgap, hviol⟩ := @hop_level sl key n
    rw [descend, hhop]
    simp only
    obtain ⟨d', hd, hhops, hkeep, htrip⟩ := ih _
    refine ⟨d', hd, fun L hL => ?_, fun L hL => ?_, fun ht => ?_⟩
    · rcases Nat.lt_succ_iff_lt_or_eq.mp hL with hL | rfl
      · exact hhops L hL
      · rw [hkeep L (Nat.le_refl L)]
        simpa using hgap
    · rw [hkeep L (by omega)]
      exact if_neg (by omega)
    · rcases htrip ht with ht | ⟨L, hL, hv⟩
      · rw [Bool.or_eq_true, decide_eq_true_eq] at ht
        exact ht.imp_right fun hk => ⟨n, Nat.lt_succ_self n, hviol hk⟩
      · exact .inr ⟨L, by omega, hv⟩

end Descent

/-- What a lookup's descent sees of the levels, against the audit. The head's top level has nothing
above it, and the audit does not look at it. -/
theorem slLookupDetect_audit (sl : Skiplist) (key : ℕ) :
    (∀ L < sl.top, (slLookupDetect sl key).hops L ≤ ((slAudit sl).level L).maxGap) ∧
    ((slLookupDetect sl key).found = true ↔ ∃ n ∈ sl.link 0, n.key = key) ∧
    ((slLookupDetect sl key).tripped = true →
      1 ≤ (slAudit sl).totalViolations ∨ gapMax < (slLookupDetect sl key).hops sl.top) := by
  have hsplit : ∀ L, ∃ C, sl.link L = sl.before key L ++ C ∧ ∀ n ∈ C, key ≤ n.key :=
    fun L => exists_split (sl.sorted L)
  have hbefore : ∀ L, ∀ n ∈ sl.before key L, n.key < key := fun L n hn => by
    simpa using (mem_filter.mp hn).2
  obtain ⟨C, htop, hC⟩ := hsplit sl.top
  have hhop : hop key none (sl.after sl.top none) =
      ((sl.before key sl.top).getLast?, (sl.before key sl.top).length) := by
    rw [Skiplist.after, htop, hop_eq none (hbefore sl.top) hC, Option.or_none]
  unfold slLookupDetect
  rw [descend, hhop]
  simp only
  obtain ⟨d, hd, hhops, hkeep, htrip⟩ := @descend_level sl key _ sl.top
  rw [hd]
  refine ⟨fun L hL => ?_, ?_, fun ht => ?_⟩
  · unfold slAudit
    rw [(auditLevels_level _ hL).1]
    exact hhops L hL
  · obtain ⟨C, hzero, hC⟩ := hsplit 0
    have hs := sl.sorted 0
    simp only
    rw [sl.after_eq hzero]
    rw [hzero] at hs ⊢
    constructor
    · intro hfound
      obtain ⟨n, hn, hkey⟩ := Option.any_eq_true _ _ |>.mp hfound
      exact ⟨n, mem_append_right _ (mem_of_mem_head? hn), by simpa using hkey⟩
    · rintro ⟨n, hn, rfl⟩
      have hnC : n ∈ C := (mem_append.mp hn).resolve_left fun h =>
        Nat.lt_irrefl _ (hbefore 0 n h)
      cases C with
      | nil => cases hnC
      | cons c C =>
        -- the first node that is not before the key cannot be past it
        have hle := hC c mem_cons_self
        have hcn : c.key ≤ n.key := by
          rcases mem_cons.mp hnC with rfl | hnC
          · exact Nat.le_refl _
          · exact Nat.le_of_lt ((pairwise_cons.mp (pairwise_append.mp hs).2.1).1 n hnC)
        simp [Nat.le_antisymm hcn hle]
  · rcases htrip ht with ht | ⟨L, hL, hv⟩
    · right
      rw [hkeep sl.top (Nat.le_refl _)]
      simpa using ht
    · left
      exact hv.trans (auditLevels_level _ hL).2

def Skiplist.of (top : ℕ) (nodes : List Node) (hs : nodes.Pairwise Before)
    (hh : ∀ n ∈ nodes, n.toplevel ≤ top) : Skiplist where
  top := top
  link L := nodes.filter fun n => L ≤ n.toplevel
  sorted L := hs.filter _
  below L := by
    rw [show (fun n : Node => decide (L + 1 ≤ n.toplevel)) =
        fun n => decide (L + 1 ≤ n.toplevel) && decide (L ≤ n.toplevel) by
      funext n
      rw [Bool.eq_iff_iff]
      simp
      omega, ← filter_filter]
    exact filter_sublist
  tower n hn L := by
    simp only [mem_filter] at hn ⊢
    simp [hn.1]
  height n hn := hh n (mem_filter.mp hn).1

/-- Four nodes as high as the head: the lookup of a key past them trips, and every gap below the
top level is empty. -/
theorem tripped_without_violation : ∃ sl : Skiplist, sl.top = 7 ∧ ∃ key,
    (slLookupDetect sl key).tripped = true ∧ (slAudit sl).totalViolations = 0 :=
  ⟨.of 7 [⟨1, 7⟩, ⟨2, 7⟩, ⟨3, 7⟩, ⟨4, 7⟩] (by unfold Before; decide) (by decide), rfl, 5, by decide, rfl⟩

end TrieBenchmark.Bench.SkiplistDetect
