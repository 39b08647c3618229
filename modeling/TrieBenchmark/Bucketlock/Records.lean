import TrieBenchmark.Bucketlock.Commit

/-!
The records that the chain edits issue, word by word: a head word carries the lock of its chain in
a bit of its own, so a record on a head has to hold that bit in both of its values. The records of
one commit name each slot once, and hold what the slot has under the locks.
-/

namespace TrieBenchmark.Bucketlock.Locked

open List Function Hlist

structure Stored (N : Type) where
  word : Word N
  lock : Bool
  deriving DecidableEq, Repr

/-- The bits a parked proxy keeps in the word: `DC_HTAG`, or `DC_HLOCKTAG` on a locked head. -/
inductive Tag where
  | htag
  | hlocktag
  deriving DecidableEq, Repr

structure Mem (H N : Type) where
  slot : Slot H N → Stored N
  pprev : N → Option (Slot H N)

inductive Rec (H N : Type) where
  | link (slot : Slot H N) (old new : Stored N) (tag : Tag)
  | back (node : N) (old new : Option (Slot H N)) (tag : Tag)

structure SwTxn (H N : Type) where
  mem : Mem H N
  recs : List (Rec H N)

variable {H N : Type}

namespace Mem

variable (M : Mem H N)

def store [DecidableEq H] [DecidableEq N] (s : Slot H N) (v : Stored N) : Mem H N :=
  { M with slot := update M.slot s v }

def setPprev [DecidableEq N] (n : N) (s : Option (Slot H N)) : Mem H N :=
  { M with pprev := update M.pprev n s }

def first (h : H) : Option N :=
  (M.slot (.first h)).word.ptr

def next (n : N) : Option N :=
  (M.slot (.next n)).word.ptr

def marked (n : N) : Bool :=
  (M.slot (.next n)).word.mark

def lockAt (ppv : Option (Slot H N)) : Bool :=
  match ppv with
  | some s => (M.slot s).lock
  | none => false

def plain : Links H N :=
  ⟨fun s => (M.slot s).word, M.pprev⟩

end Mem

namespace Rec

def place : Rec H N → Slot H N ⊕ N
  | .link slot _ _ _ => .inl slot
  | .back node _ _ _ => .inr node

def Current (M : Mem H N) : Rec H N → Prop
  | .link slot old _ _ => M.slot slot = old
  | .back node old _ _ => M.pprev node = old

def plain : Rec H N → Record H N
  | .link slot old new _ => .link slot old.word new.word
  | .back node old new _ => .back node old new

def settle [DecidableEq H] [DecidableEq N] (M : Mem H N) : Rec H N → Mem H N
  | .link slot _ new _ => M.store slot new
  | .back node _ new _ => M.setPprev node new

end Rec

def lockTag (lk : Bool) : Tag :=
  if lk then .hlocktag else .htag

def linkRec (pprev : Option (Slot H N)) (old new : Stored N) (tag : Tag) : List (Rec H N) :=
  match pprev with
  | some slot => [.link slot old new tag]
  | none => []

def backRec (next : Option N) (old new : Option (Slot H N)) : List (Rec H N) :=
  match next with
  | some node => [.back node old new .htag]
  | none => []

section

variable [DecidableEq H] [DecidableEq N]

def SwTxn.commit (t : SwTxn H N) : Mem H N :=
  t.recs.foldl Rec.settle t.mem

def blSwAddHead (t : SwTxn H N) (new : N) (h : H) : SwTxn H N :=
  let succ := t.mem.first h
  { mem := (t.mem.store (.next new) ⟨⟨succ, false⟩, false⟩).setPprev new (some (.first h))
    recs := t.recs ++ .link (.first h) ⟨⟨succ, false⟩, true⟩ ⟨⟨some new, false⟩, true⟩ .hlocktag ::
      backRec succ (some (.first h)) (some (.next new)) }

def blSwDelMarked (t : SwTxn H N) (elem : N) : SwTxn H N :=
  let ppv := t.mem.pprev elem
  let next := t.mem.next elem
  let lk := t.mem.lockAt ppv
  { t with
    recs := t.recs ++
      linkRec ppv ⟨⟨some elem, false⟩, lk⟩ ⟨⟨next, false⟩, lk⟩ (lockTag lk) ++
      backRec next (some (.next elem)) ppv ++
      [.link (.next elem) ⟨⟨next, false⟩, false⟩ ⟨⟨next, true⟩, false⟩ .htag] }

def blSwReplace (t : SwTxn H N) (old new : N) : SwTxn H N :=
  let ppv := t.mem.pprev old
  let next := t.mem.next old
  let lk := t.mem.lockAt ppv
  { mem := (t.mem.store (.next new) ⟨⟨next, false⟩, false⟩).setPprev new ppv
    recs := t.recs ++
      linkRec ppv ⟨⟨some old, false⟩, lk⟩ ⟨⟨some new, false⟩, lk⟩ (lockTag lk) ++
      backRec next (some (.next old)) (some (.next new)) ++
      [.link (.next old) ⟨⟨next, false⟩, false⟩ ⟨⟨next, true⟩, false⟩ .htag] }

def blSwReplaceAdj (t : SwTxn H N) (first newfirst second newsecond : N) : SwTxn H N :=
  let pp := t.mem.pprev first
  let succ := t.mem.next second
  let lk := t.mem.lockAt pp
  { mem := (((t.mem.setPprev newfirst pp).store (.next newfirst)
      ⟨⟨some newsecond, false⟩, false⟩).setPprev newsecond (some (.next newfirst))).store
      (.next newsecond) ⟨⟨succ, false⟩, false⟩
    recs := t.recs ++
      linkRec pp ⟨⟨some first, false⟩, lk⟩ ⟨⟨some newfirst, false⟩, lk⟩ (lockTag lk) ++
      backRec succ (some (.next second)) (some (.next newsecond)) ++
      [.link (.next first) ⟨⟨some second, false⟩, false⟩ ⟨⟨some second, true⟩, false⟩ .htag,
        .link (.next second) ⟨⟨succ, false⟩, false⟩ ⟨⟨succ, true⟩, false⟩ .htag] }

def blSwReplace2 (t : SwTxn H N) (olda newa oldb newb : N) : SwTxn H N :=
  if t.mem.next olda = some oldb then blSwReplaceAdj t olda newa oldb newb
  else if t.mem.next oldb = some olda then blSwReplaceAdj t oldb newb olda newa
  else blSwReplace (blSwReplace t olda newa) oldb newb

end

/-! The same edits without the lock bits. -/

section Plain

variable [DecidableEq H] [DecidableEq N]

def SwTxn.plain (t : SwTxn H N) : Bucketlock.SwTxn H N :=
  ⟨t.mem.plain, t.recs.map Rec.plain⟩

omit [DecidableEq H] [DecidableEq N] in
@[simp] theorem Mem.plain_first (M : Mem H N) (h : H) : M.plain.first h = M.first h := rfl

omit [DecidableEq H] [DecidableEq N] in
@[simp] theorem Mem.plain_next (M : Mem H N) (n : N) : M.plain.next n = M.next n := rfl

omit [DecidableEq H] [DecidableEq N] in
@[simp] theorem Mem.plain_pprev (M : Mem H N) (n : N) : M.plain.pprev n = M.pprev n := rfl

@[simp] theorem Mem.plain_store (M : Mem H N) (s : Slot H N) (v : Stored N) :
    (M.store s v).plain = M.plain.store s v.word := by
  have hword : (fun t => (update M.slot s v t).word) =
      update (fun t => (M.slot t).word) s v.word := by
    funext t
    by_cases ht : t = s
    · subst ht
      simp
    · simp [ht]
  simp only [Mem.plain, Mem.store, Links.store, hword]

omit [DecidableEq H] in
@[simp] theorem Mem.plain_setPprev (M : Mem H N) (n : N) (s : Option (Slot H N)) :
    (M.setPprev n s).plain = M.plain.setPprev n s := rfl

theorem Mem.store_lock (M : Mem H N) (s t : Slot H N) (v : Stored N) :
    ((M.store s v).slot t).lock = if t = s then v.lock else (M.slot t).lock := by
  unfold store
  by_cases ht : t = s
  · subst ht
    simp
  · simp [ht]

omit [DecidableEq H] in
theorem Mem.setPprev_slot (M : Mem H N) (n : N) (p : Option (Slot H N)) :
    (M.setPprev n p).slot = M.slot := rfl

theorem SwTxn.plain_commit (t : SwTxn H N) : t.commit.plain = t.plain.commit := by
  obtain ⟨M, recs⟩ := t
  unfold commit Bucketlock.SwTxn.commit plain
  induction recs generalizing M with
  | nil => rfl
  | cons r _ ih =>
    rw [foldl_cons, ih, map_cons, foldl_cons]
    congr 1
    cases r with
    | link slot _ new => exact Mem.plain_store M slot new
    | back => rfl

omit [DecidableEq H] [DecidableEq N] in
@[simp] theorem linkRec_plain (pprev : Option (Slot H N)) (old new : Stored N) (tag : Tag) :
    (linkRec pprev old new tag).map Rec.plain = linkRecord pprev old.word new.word := by
  cases pprev <;> rfl

omit [DecidableEq H] [DecidableEq N] in
@[simp] theorem backRec_plain (next : Option N) (old new : Option (Slot H N)) :
    (backRec next old new).map Rec.plain = backRecord next old new := by
  cases next <;> rfl

theorem blSwAddHead_plain (t : SwTxn H N) (new : N) (h : H) :
    (blSwAddHead t new h).plain = Bucketlock.blSwAddHead t.plain new h := by
  simp [blSwAddHead, Bucketlock.blSwAddHead, SwTxn.plain, Rec.plain]

omit [DecidableEq H] [DecidableEq N] in
theorem blSwDelMarked_plain (t : SwTxn H N) (elem : N) :
    (blSwDelMarked t elem).plain = Bucketlock.blSwDelMarked t.plain elem := by
  simp [blSwDelMarked, Bucketlock.blSwDelMarked, SwTxn.plain, Rec.plain]

theorem blSwReplace_plain (t : SwTxn H N) (old new : N) :
    (blSwReplace t old new).plain = Bucketlock.blSwReplace t.plain old new := by
  simp [blSwReplace, Bucketlock.blSwReplace, SwTxn.plain, Rec.plain]

theorem blSwReplaceAdj_plain (t : SwTxn H N) (first newfirst second newsecond : N) :
    (blSwReplaceAdj t first newfirst second newsecond).plain =
      Bucketlock.blSwReplaceAdj t.plain first newfirst second newsecond := by
  simp [blSwReplaceAdj, Bucketlock.blSwReplaceAdj, SwTxn.plain, Rec.plain]

theorem blSwReplace2_plain (t : SwTxn H N) (olda newa oldb newb : N) :
    (blSwReplace2 t olda newa oldb newb).plain =
      Bucketlock.blSwReplace2 t.plain olda newa oldb newb := by
  have hnext : ∀ n, t.plain.mem.next n = t.mem.next n := fun _ => rfl
  unfold blSwReplace2 Bucketlock.blSwReplace2
  simp only [hnext]
  split_ifs
  · exact blSwReplaceAdj_plain ..
  · exact blSwReplaceAdj_plain ..
  · rw [blSwReplace_plain, blSwReplace_plain]

end Plain

/-! What the records of an edit name. -/

def around (L : Links H N) (n : N) : List (Slot H N ⊕ N) :=
  (L.pprev n).toList.map .inl ++ (L.next n).toList.map .inr ++ [.inl (.next n)]

def front (L : Links H N) (h : H) : List (Slot H N ⊕ N) :=
  .inl (.first h) :: (L.first h).toList.map .inr

section Places

variable {L : Links H N} {h h' : H} {xs xs' : List N} {a b n : N}

theorem mem_around {x : Slot H N ⊕ N} : x ∈ around L n ↔
    (∃ e, L.pprev n = some e ∧ x = .inl e) ∨ (∃ m, L.next n = some m ∧ x = .inr m) ∨
      x = .inl (.next n) := by
  simp only [around, mem_append, mem_map, Option.mem_toList,
    mem_singleton, or_assoc, eq_comm (a := x)]

theorem around_nodup (hC : Chain L h xs) (hn : n ∈ xs) : (around L n).Nodup := by
  obtain ⟨e, hpp, hself, -⟩ := hC.edit_facts hn
  unfold around
  rw [hpp]
  cases L.next n <;> simp [hself]

theorem around_disjoint (hC : Chain L h xs) (hC' : Chain L h' xs') (ha : a ∈ xs) (hb : b ∈ xs')
    (hne : a ≠ b) (hab : L.next a ≠ some b) (hba : L.next b ≠ some a) :
    (around L a).Disjoint (around L b) := by
  intro x hxa hxb
  rw [mem_around] at hxa hxb
  obtain ⟨_, _, -, hppa, hslota, -⟩ := hC.around ha
  obtain ⟨_, _, -, hppb, hslotb, -⟩ := hC'.around hb
  rcases hxa with ⟨e, he, rfl⟩ | ⟨m, hm, rfl⟩ | rfl
  · rcases hxb with ⟨e', he', hx⟩ | ⟨m, -, hx⟩ | hx
    · obtain rfl : e = e' := Sum.inl.inj hx
      rw [he, Option.some.injEq] at hppa
      rw [he', Option.some.injEq] at hppb
      rw [← hppa] at hslota
      rw [← hppb, hslota] at hslotb
      exact hne (Option.some.inj (congrArg Word.ptr hslotb))
    · cases hx
    · obtain rfl : e = .next b := Sum.inl.inj hx
      exact hba (hC.next_of_pprev ha he)
  · rcases hxb with ⟨e', -, hx⟩ | ⟨m', hm', hx⟩ | hx
    · cases hx
    · obtain rfl : m = m' := Sum.inr.inj hx
      have hback := hC.pprev_of_next ha hm
      rw [hC'.pprev_of_next hb hm', Option.some.injEq, Slot.next.injEq] at hback
      exact hne hback.symm
    · cases hx
  · rcases hxb with ⟨e', he', hx⟩ | ⟨m', -, hx⟩ | hx
    · obtain rfl : Slot.next a = e' := Sum.inl.inj hx
      exact hab (hC'.next_of_pprev hb he')
    · cases hx
    · exact hne (Slot.next.inj (Sum.inl.inj hx))

end Places

section Places

theorem linkRec_place (pprev : Option (Slot H N)) (old new : Stored N) (tag : Tag) :
    (linkRec pprev old new tag).map Rec.place = pprev.toList.map .inl := by
  cases pprev <;> rfl

theorem backRec_place (next : Option N) (old new : Option (Slot H N)) :
    (backRec next old new).map Rec.place = next.toList.map .inr := by
  cases next <;> rfl

variable (M : Mem H N)

theorem blSwDelMarked_places (n : N) :
    (blSwDelMarked ⟨M, []⟩ n).recs.map Rec.place = around M.plain n := by
  simp only [blSwDelMarked, around, nil_append, map_append, linkRec_place, backRec_place]
  rfl

variable [DecidableEq H] [DecidableEq N]

theorem blSwReplace_places (old new : N) :
    (blSwReplace ⟨M, []⟩ old new).recs.map Rec.place = around M.plain old := by
  simp only [blSwReplace, around, nil_append, map_append, linkRec_place, backRec_place]
  rfl

theorem blSwAddHead_places (new : N) (h : H) :
    (blSwAddHead ⟨M, []⟩ new h).recs.map Rec.place = front M.plain h := by
  simp only [blSwAddHead, front, nil_append, map_cons, backRec_place]
  rfl

end Places

/-! The old values of the records, and the lock bits. -/

namespace Rec

def Even : Rec H N → Prop
  | .link _ old new _ => new.lock = old.lock
  | .back _ _ _ _ => True

variable {M M' : Mem H N}

theorem current_linkRec {pprev : Option (Slot H N)} {old new : Stored N} {tag : Tag}
    (hold : ∀ s, pprev = some s → M.slot s = old) : ∀ r ∈ linkRec pprev old new tag, r.Current M := by
  intro r hr
  cases pprev with
  | none => cases hr
  | some s =>
    obtain rfl := mem_singleton.mp hr
    exact hold s rfl

theorem current_backRec {next : Option N} {old new : Option (Slot H N)}
    (hold : ∀ m, next = some m → M.pprev m = old) : ∀ r ∈ backRec next old new, r.Current M := by
  intro r hr
  cases next with
  | none => cases hr
  | some m =>
    obtain rfl := mem_singleton.mp hr
    exact hold m rfl

theorem even_linkRec {pprev : Option (Slot H N)} {w w' : Word N} {lk : Bool} {tag : Tag} :
    ∀ r ∈ linkRec pprev ⟨w, lk⟩ ⟨w', lk⟩ tag, r.Even := by
  intro r hr
  cases pprev with
  | none => cases hr
  | some =>
    obtain rfl := mem_singleton.mp hr
    rfl

theorem even_backRec {next : Option N} {old new : Option (Slot H N)} :
    ∀ r ∈ backRec next old new, r.Even := by
  intro r hr
  cases next with
  | none => cases hr
  | some =>
    obtain rfl := mem_singleton.mp hr
    trivial

theorem lock_foldl [DecidableEq H] [DecidableEq N] {recs : List (Rec H N)}
    (hcur : ∀ r ∈ recs, r.Current M) (heven : ∀ r ∈ recs, r.Even)
    (hsame : ∀ s, .inl s ∈ recs.map Rec.place → (M'.slot s).lock = (M.slot s).lock) (s : Slot H N) :
    ((recs.foldl settle M').slot s).lock = (M'.slot s).lock := by
  induction recs generalizing M' with
  | nil => rfl
  | cons r _ ih =>
    have hstep : ∀ t, ((settle M' r).slot t).lock = (M'.slot t).lock := by
      intro t
      cases r with
      | link slot old new tag =>
        by_cases ht : t = slot
        · subst ht
          have hold : M.slot t = old := hcur (.link t old new tag) (by simp)
          have hnew : new.lock = old.lock := heven (.link t old new tag) (by simp)
          simp [settle, Mem.store, hsame t (by simp [place]), hold, hnew]
        · simp [settle, Mem.store, ht]
      | back => rfl
    rw [foldl_cons, ih (fun r hr => hcur r (by simp [hr])) (fun r hr => heven r (by simp [hr]))
      fun t ht => ?_, hstep]
    rw [hstep, hsame t (by simp [ht])]

end Rec

section Current

variable {M : Mem H N} {h : H} {xs : List N} {n old new : N}

theorem slot_eq (hC : Chain M.plain h xs) (hn : n ∈ xs) {s : Slot H N} (hs : M.pprev n = some s) :
    M.slot s = ⟨⟨some n, false⟩, M.lockAt (M.pprev n)⟩ := by
  obtain ⟨ys, zs, -, hpp, hslot, -⟩ := hC.around hn
  obtain rfl : s = endSlot (.first h) ys := Option.some.inj (hs.symm.trans hpp)
  have hword : (M.slot (endSlot (.first h) ys)).word = ⟨some n, false⟩ := hslot
  rw [hs, Mem.lockAt, ← hword]

theorem node_eq (hC : Chain M.plain h xs) (hn : n ∈ xs) (hbare : (M.slot (.next n)).lock = false) :
    M.slot (.next n) = ⟨⟨M.next n, false⟩, false⟩ := by
  obtain ⟨ys, zs, -, -, -, hnode⟩ := hC.around hn
  have hword : (M.slot (.next n)).word = ⟨zs.head?, false⟩ := hnode
  rw [Mem.next, hword, ← hword, ← hbare]

theorem blSwDelMarked_current (hC : Chain M.plain h xs) (hn : n ∈ xs)
    (hbare : (M.slot (.next n)).lock = false) :
    ∀ r ∈ (blSwDelMarked ⟨M, []⟩ n).recs, r.Current M ∧ r.Even := by
  intro r hr
  simp only [blSwDelMarked, nil_append, mem_append, mem_singleton] at hr
  rcases hr with (hr | hr) | rfl
  · exact ⟨Rec.current_linkRec (fun s hs => slot_eq hC hn hs) r hr, Rec.even_linkRec r hr⟩
  · exact ⟨Rec.current_backRec (fun m hm => hC.pprev_of_next hn hm) r hr, Rec.even_backRec r hr⟩
  · exact ⟨node_eq hC hn hbare, rfl⟩

variable [DecidableEq H] [DecidableEq N]

variable (new) in
theorem blSwReplace_current (hC : Chain M.plain h xs) (hold : old ∈ xs)
    (hbare : (M.slot (.next old)).lock = false) :
    ∀ r ∈ (blSwReplace ⟨M, []⟩ old new).recs, r.Current M ∧ r.Even := by
  intro r hr
  simp only [blSwReplace, nil_append, mem_append, mem_singleton] at hr
  rcases hr with (hr | hr) | rfl
  · exact ⟨Rec.current_linkRec (fun s hs => slot_eq hC hold hs) r hr, Rec.even_linkRec r hr⟩
  · exact ⟨Rec.current_backRec (fun m hm => hC.pprev_of_next hold hm) r hr, Rec.even_backRec r hr⟩
  · exact ⟨node_eq hC hold hbare, rfl⟩

end Current

/-- A well-formed chain under its lock: the head word carries the lock bit, no other word does. -/
structure Chained (M : Mem H N) (h : H) (xs : List N) : Prop where
  chain : Chain M.plain h xs
  locked : (M.slot (.first h)).lock = true
  bare : ∀ n ∈ xs, (M.slot (.next n)).lock = false

structure Exact (M : Mem H N) (recs : List (Rec H N)) : Prop where
  once : (recs.map Rec.place).Nodup
  current : ∀ r ∈ recs, r.Current M

section Replace2

variable [DecidableEq H] [DecidableEq N] {M : Mem H N} {h : H} {xs : List N}
  {olda newa oldb newb : N}

theorem blSwReplace_recs_congr {M M' : Mem H N} {old new : N} (hpp : M'.pprev old = M.pprev old)
    (hnext : M'.next old = M.next old) (hlock : M'.lockAt (M.pprev old) = M.lockAt (M.pprev old)) :
    (blSwReplace ⟨M', []⟩ old new).recs = (blSwReplace ⟨M, []⟩ old new).recs := by
  simp only [blSwReplace, hpp, hnext, hlock]

theorem blSwReplace_append (t : SwTxn H N) (old new : N) :
    (blSwReplace t old new).recs = t.recs ++ (blSwReplace ⟨t.mem, []⟩ old new).recs := by
  simp only [blSwReplace, append_assoc, nil_append]

theorem blSwReplace_twice_recs (hC : Chain M.plain h xs) (holb : oldb ∈ xs) (hnea : newa ∉ xs) :
    (blSwReplace (blSwReplace ⟨M, []⟩ olda newa) oldb newb).recs =
      (blSwReplace ⟨M, []⟩ olda newa).recs ++ (blSwReplace ⟨M, []⟩ oldb newb).recs := by
  obtain ⟨e, hpp, -, hfresh, -⟩ := hC.edit_facts holb
  have hpp : M.pprev oldb = some e := hpp
  have hne : oldb ≠ newa := fun he => hnea (he ▸ holb)
  have hen : e ≠ .next newa := hfresh newa hnea
  rw [blSwReplace_append]
  congr 1
  apply blSwReplace_recs_congr
  · simp [blSwReplace, Mem.setPprev, Mem.store, hne]
  · simp [blSwReplace, Mem.setPprev, Mem.store, Mem.next, hne]
  · rw [hpp]
    simp [blSwReplace, Mem.setPprev, Mem.store, Mem.lockAt, hen]

theorem blSwReplaceAdj_places :
    (blSwReplaceAdj ⟨M, []⟩ olda newa oldb newb).recs.map Rec.place =
      (M.pprev olda).toList.map .inl ++ (M.next oldb).toList.map .inr ++
        [.inl (.next olda), .inl (.next oldb)] := by
  simp only [blSwReplaceAdj, nil_append, map_append, linkRec_place, backRec_place]
  rfl

theorem blSwReplaceAdj_exact (hC : Chained M h xs) (hola : olda ∈ xs) (holb : oldb ∈ xs)
    (hab : M.next olda = some oldb) :
    Exact M (blSwReplaceAdj ⟨M, []⟩ olda newa oldb newb).recs ∧
      ∀ r ∈ (blSwReplaceAdj ⟨M, []⟩ olda newa oldb newb).recs, r.Even := by
  have hboth : ∀ r ∈ (blSwReplaceAdj ⟨M, []⟩ olda newa oldb newb).recs, r.Current M ∧ r.Even := by
    intro r hr
    simp only [blSwReplaceAdj, nil_append, mem_append, mem_cons,
      not_mem_nil, or_false] at hr
    have hnode := node_eq hC.chain hola (hC.bare olda hola)
    rw [hab] at hnode
    rcases hr with (hr | hr) | rfl | rfl
    · exact ⟨Rec.current_linkRec (fun s hs => slot_eq hC.chain hola hs) r hr,
        Rec.even_linkRec r hr⟩
    · exact ⟨Rec.current_backRec (fun m hm => hC.chain.pprev_of_next holb hm) r hr,
        Rec.even_backRec r hr⟩
    · exact ⟨hnode, rfl⟩
    · exact ⟨node_eq hC.chain holb (hC.bare oldb holb), rfl⟩
  refine ⟨⟨?_, fun r hr => (hboth r hr).1⟩, fun r hr => (hboth r hr).2⟩
  obtain ⟨e, hpp, hself, -, hnext, -⟩ := hC.chain.edit_facts hola
  have hpp : M.pprev olda = some e := hpp
  have heb : e ≠ .next oldb := fun he =>
    hC.chain.next_asymm hola hab (hC.chain.next_of_pprev hola (he ▸ hpp))
  have hne : olda ≠ oldb := fun he => hnext (he ▸ hab)
  rw [blSwReplaceAdj_places, hpp]
  cases M.next oldb <;> simp [hself, heb, hne]

variable (newb) in
theorem blSwReplace2_exact (hC : Chained M h xs) (hola : olda ∈ xs) (holb : oldb ∈ xs)
    (hnea : newa ∉ xs) (hold : olda ≠ oldb) :
    Exact M (blSwReplace2 ⟨M, []⟩ olda newa oldb newb).recs ∧
      ∀ r ∈ (blSwReplace2 ⟨M, []⟩ olda newa oldb newb).recs, r.Even := by
  unfold blSwReplace2
  split_ifs with hab hba
  · exact blSwReplaceAdj_exact hC hola holb hab
  · exact blSwReplaceAdj_exact hC holb hola hba
  · rw [blSwReplace_twice_recs hC.chain holb hnea]
    have ha := blSwReplace_current newa hC.chain hola (hC.bare _ hola)
    have hb := blSwReplace_current newb hC.chain holb (hC.bare _ holb)
    refine ⟨⟨?_, fun r hr => ?_⟩, fun r hr => ?_⟩
    · rw [map_append, blSwReplace_places, blSwReplace_places]
      exact (around_nodup hC.chain hola).append (around_nodup hC.chain holb)
        (around_disjoint hC.chain hC.chain hola holb hold hab hba)
    · exact (mem_append.mp hr).elim (fun hr => (ha r hr).1) fun hr => (hb r hr).1
    · exact (mem_append.mp hr).elim (fun hr => (ha r hr).2) fun hr => (hb r hr).2

omit [DecidableEq H] [DecidableEq N] in
theorem next_not_mem_around {L : Links H N} {n old : N} (hC : Chain L h xs) (hold : old ∈ xs)
    (hn : n ∉ xs) : .inl (.next n) ∉ around L old := by
  obtain ⟨e, hpp, -, hfresh, -⟩ := hC.edit_facts hold
  have hne : n ≠ old := fun he => hn (he ▸ hold)
  rw [mem_around, hpp]
  simp [(hfresh n hn).symm, hne]

theorem blSwReplace2_avoids (hC : Chain M.plain h xs) (hola : olda ∈ xs) (holb : oldb ∈ xs)
    (hnea : newa ∉ xs) {n : N} (hn : n ∉ xs) :
    .inl (.next n) ∉ (blSwReplace2 ⟨M, []⟩ olda newa oldb newb).recs.map Rec.place := by
  have ha := next_not_mem_around hC hola hn
  have hb := next_not_mem_around hC holb hn
  simp only [around, mem_append, mem_singleton, not_or] at ha hb
  unfold blSwReplace2
  split_ifs
  · simp only [blSwReplaceAdj_places, mem_append, mem_cons, not_mem_nil, not_or]
    exact ⟨⟨ha.1.1, by simp⟩, ha.2, hb.2, not_false⟩
  · simp only [blSwReplaceAdj_places, mem_append, mem_cons, not_mem_nil, not_or]
    exact ⟨⟨hb.1.1, by simp⟩, hb.2, ha.2, not_false⟩
  · rw [blSwReplace_twice_recs hC holb hnea, map_append, blSwReplace_places,
      blSwReplace_places, mem_append, not_or]
    exact ⟨next_not_mem_around hC hola hn, next_not_mem_around hC holb hn⟩

theorem blSwReplace2_mem_lock (s : Slot H N) :
    ((blSwReplace2 ⟨M, []⟩ olda newa oldb newb).mem.slot s).lock =
      if s = .next newa ∨ s = .next newb then false else (M.slot s).lock := by
  unfold blSwReplace2
  by_cases hab : M.next olda = some oldb
  · rw [if_pos hab]
    simp only [blSwReplaceAdj, Mem.store_lock, Mem.setPprev_slot]
    grind
  rw [if_neg hab]
  by_cases hba : M.next oldb = some olda
  · rw [if_pos hba]
    simp only [blSwReplaceAdj, Mem.store_lock, Mem.setPprev_slot]
    grind
  · rw [if_neg hba]
    simp only [blSwReplace, Mem.store_lock, Mem.setPprev_slot]
    grind

variable (newb) in
theorem blSwReplace2_lock (hC : Chained M h xs) (hola : olda ∈ xs) (holb : oldb ∈ xs)
    (hnea : newa ∉ xs) (hneb : newb ∉ xs) (hold : olda ≠ oldb) (s : Slot H N) :
    ((blSwReplace2 ⟨M, []⟩ olda newa oldb newb).commit.slot s).lock =
      if s = .next newa ∨ s = .next newb then false else (M.slot s).lock := by
  obtain ⟨hE, heven⟩ := blSwReplace2_exact newb hC hola holb hnea hold
  rw [SwTxn.commit, Rec.lock_foldl hE.current heven fun t ht => ?_, blSwReplace2_mem_lock]
  rw [blSwReplace2_mem_lock, if_neg]
  rintro (rfl | rfl)
  · exact blSwReplace2_avoids hC.chain hola holb hnea hnea ht
  · exact blSwReplace2_avoids hC.chain hola holb hnea hneb ht

/-- Replacing two nodes of one locked chain: the records are exact, and settled they leave the
chain with each new node in the place of its old one, still locked, with the two old nodes
marked. -/
theorem blSwReplace2_replaces (hC : Chained M h xs) (hola : olda ∈ xs) (holb : oldb ∈ xs)
    (hold : olda ≠ oldb) (hnea : newa ∉ xs) (hneb : newb ∉ xs) (hnew : newa ≠ newb) :
    Exact M (blSwReplace2 ⟨M, []⟩ olda newa oldb newb).recs ∧
    Chained (blSwReplace2 ⟨M, []⟩ olda newa oldb newb).commit h
      (xs.map fun x => if x = olda then newa else if x = oldb then newb else x) ∧
    ∀ n, (blSwReplace2 ⟨M, []⟩ olda newa oldb newb).commit.marked n = true ∧ M.marked n = false ↔
      n = olda ∨ n = oldb := by
  have hX := blSwReplace2_exchanged hC.chain hola holb hnea hneb hold hnew
  rw [show (⟨M.plain, []⟩ : Bucketlock.SwTxn H N) = SwTxn.plain ⟨M, []⟩ from rfl,
    ← blSwReplace2_plain, ← SwTxn.plain_commit] at hX
  obtain ⟨hchain, hmarks⟩ := hC.chain.exchanged hola holb hnea hneb hold hnew hX
  have hlock := blSwReplace2_lock newb hC hola holb hnea hneb hold
  refine ⟨(blSwReplace2_exact _ hC hola holb hnea hold).1, ⟨hchain, ?_, fun n hn => ?_⟩, fun n => ?_⟩
  · rw [hlock, if_neg (by simp)]
    exact hC.locked
  · rw [hlock]
    by_cases hnew : Slot.next (H := H) n = .next newa ∨ Slot.next (H := H) n = .next newb
    · rw [if_pos hnew]
    · -- what is not new stood in the chain before
      rw [if_neg hnew]
      obtain ⟨x, hx, rfl⟩ := mem_map.mp hn
      split_ifs at hnew ⊢
      · exact absurd (.inl rfl) hnew
      · exact absurd (.inr rfl) hnew
      · exact hC.bare x hx
  · have hmark : (blSwReplace2 ⟨M, []⟩ olda newa oldb newb).commit.marked n = _ := hmarks n
    have hlive : ∀ x ∈ xs, M.marked x = false := by
      intro x hx
      obtain ⟨ys, zs, -, -, -, hnode⟩ := hC.chain.around hx
      exact congrArg Word.mark hnode
    have ha := hlive olda hola
    have hb := hlive oldb holb
    rw [hmark, show M.plain.marked n = M.marked n from rfl]
    grind

def threeChain : Mem Unit ℕ where
  slot
    | .first _ => ⟨⟨some 1, false⟩, true⟩
    | .next 1 => ⟨⟨some 2, false⟩, false⟩
    | .next 2 => ⟨⟨some 3, false⟩, false⟩
    | .next _ => ⟨⟨none, false⟩, false⟩
  pprev
    | 1 => some (.first ())
    | 2 => some (.next 1)
    | 3 => some (.next 2)
    | _ => none

theorem threeChain_chained : Chained threeChain () [1, 2, 3] :=
  ⟨⟨⟨⟨rfl, rfl, rfl, rfl, rfl, rfl, trivial⟩, rfl⟩, by decide⟩, rfl, by decide⟩

/-- Its first two nodes, the later one named first. -/
theorem blSwReplace2_replaces_adjacent :
    Chained (blSwReplace2 ⟨threeChain, []⟩ 2 12 1 11).commit () [11, 12, 3] :=
  (blSwReplace2_replaces threeChain_chained (by decide) (by decide) (by decide) (by decide)
    (by decide) (by decide)).2.1

end Replace2

end TrieBenchmark.Bucketlock.Locked
