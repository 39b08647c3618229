import TrieBenchmark.Bucketlock.Records

/-!
The records of a move: `stack_one_prepare` swaps the named top of an entry for a shell in both
indexes, in place or from one chain to the front of another, and a lingering entry may stay behind
in the child list.
-/

namespace TrieBenchmark.Bucketlock.Locked

open List Function Hlist

variable {H N : Type}

structure Indexed (M : Mem H N) (c : H → List N) (held : H → Bool) : Prop where
  family : Family M.plain c
  locks : ∀ h, (M.slot (.first h)).lock = held h
  bare : ∀ h, ∀ n ∈ c h, (M.slot (.next n)).lock = false

section Vacate

variable [DecidableEq H] [DecidableEq N]

def vacate (t : SwTxn H N) (old : N) (stay : Option N) : SwTxn H N :=
  match stay with
  | some l => blSwReplace t old l
  | none => blSwDelMarked t old

def vacated (c : H → List N) (old : N) (stay : Option N) (k : H) : List N :=
  match stay with
  | some l => (c k).map (update id old l)
  | none => (c k).erase old

variable {M : Mem H N} {c : H → List N} {held : H → Bool} {old new : N} {stay : Option N} {h h' : H}

theorem vacate_places : (vacate ⟨M, []⟩ old stay).recs.map Rec.place = around M.plain old := by
  cases stay with
  | none => exact blSwDelMarked_places M old
  | some l => exact blSwReplace_places M old l

variable (stay) in
theorem vacate_current (hI : Indexed M c held) (hold : old ∈ c h) :
    ∀ r ∈ (vacate ⟨M, []⟩ old stay).recs, r.Current M ∧ r.Even := by
  cases stay with
  | none => exact blSwDelMarked_current (hI.family.toChain h) hold (hI.bare h old hold)
  | some l => exact blSwReplace_current l (hI.family.toChain h) hold (hI.bare h old hold)

theorem vacate_mem_lock (s : Slot H N) : ((vacate ⟨M, []⟩ old stay).mem.slot s).lock =
    if stay.map Slot.next = some s then false else (M.slot s).lock := by
  cases stay with
  | none => rfl
  | some l =>
    show ((blSwReplace ⟨M, []⟩ old l).mem.slot s).lock = _
    simp only [blSwReplace, Mem.setPprev_slot, Mem.store_lock, Option.map_some,
      Option.some.injEq, eq_comm (a := s)]

theorem vacate_mem_first (k : H) : (vacate ⟨M, []⟩ old stay).mem.first k = M.first k := by
  cases stay with
  | none => rfl
  | some => simp [vacate, blSwReplace, Mem.first, Mem.setPprev, Mem.store]

theorem vacate_avoids (hF : Family M.plain c) (hold : old ∈ c h) (hnew : ∀ k, new ∉ c k) :
    ∀ r ∈ (vacate ⟨M, []⟩ old stay).plain.recs, r.Avoids new := by
  cases stay with
  | none =>
    show ∀ r ∈ (blSwDelMarked ⟨M, []⟩ old).plain.recs, _
    rw [blSwDelMarked_plain]
    exact blSwDelMarked_avoids hF hold hnew
  | some l =>
    show ∀ r ∈ (blSwReplace ⟨M, []⟩ old l).plain.recs, _
    rw [blSwReplace_plain]
    exact blSwReplace_avoids (hF.ready hold hnew)

theorem vacate_family (hF : Family M.plain c) (hold : old ∈ c h)
    (hstay : ∀ l, stay = some l → ∀ k, l ∉ c k) :
    Family (vacate ⟨M, []⟩ old stay).commit.plain (vacated c old stay) ∧
      ∀ n, (vacate ⟨M, []⟩ old stay).commit.marked n =
        if n = old then true else if stay = some n then false else M.marked n := by
  have hC := hF.toChain h
  cases stay with
  | none =>
    have hE := blSwDelMarked_erased hF hold
    rw [show (⟨M.plain, []⟩ : Bucketlock.SwTxn H N) = SwTxn.plain ⟨M, []⟩ from rfl,
      ← blSwDelMarked_plain, ← SwTxn.plain_commit] at hE
    refine ⟨hF.unlinked_erase hold hE.unlinked, fun n => ?_⟩
    rw [if_neg (by simp : ¬ (none : Option N) = some n)]
    exact hC.marked_erased hold hE n
  | some l =>
    have hout := hstay l rfl
    have hR := blSwReplace_replaced (hF.ready hold hout)
    rw [show (⟨M.plain, []⟩ : Bucketlock.SwTxn H N) = SwTxn.plain ⟨M, []⟩ from rfl,
      ← blSwReplace_plain, ← SwTxn.plain_commit] at hR
    refine ⟨hF.replaced_map hold hout hR, fun n => ?_⟩
    simp only [Option.some.injEq, eq_comm (a := l)]
    exact hC.marked_replaced hold hR n

omit [DecidableEq H] in
theorem mem_vacated {n : N} {k : H} (hn : n ∈ vacated c old stay k) :
    n ∈ c k ∨ stay = some n := by
  cases stay with
  | none => exact .inl (mem_of_mem_erase hn)
  | some =>
    obtain ⟨x, hx, rfl⟩ := mem_map.mp hn
    by_cases hxo : x = old
    · rw [hxo, update_self]
      exact .inr rfl
    · rw [update_of_ne hxo]
      exact .inl hx

omit [DecidableEq H] in
theorem vacated_other {k : H} (hk : old ∉ c k) : vacated c old stay k = c k := by
  cases stay with
  | none => exact erase_of_not_mem hk
  | some l =>
    have hid : (c k).map (update id old l) = (c k).map id :=
      map_congr_left fun x hx => update_of_ne (ne_of_mem_of_not_mem hx hk) ..
    rw [vacated, hid, map_id]

theorem vacate_lock (hI : Indexed M c held) (hold : old ∈ c h)
    (hstay : ∀ l, stay = some l → ∀ k, l ∉ c k) (s : Slot H N) :
    ((vacate ⟨M, []⟩ old stay).commit.slot s).lock =
      if stay.map Slot.next = some s then false else (M.slot s).lock := by
  have hboth := vacate_current stay hI hold
  rw [SwTxn.commit, Rec.lock_foldl (fun r hr => (hboth r hr).1) (fun r hr => (hboth r hr).2)
    fun t ht => ?_, vacate_mem_lock]
  rw [vacate_mem_lock, if_neg]
  intro he
  obtain ⟨l, rfl, rfl⟩ := Option.map_eq_some_iff.mp he
  rw [vacate_places] at ht
  exact next_not_mem_around (hI.family.toChain h) hold (hstay l rfl h) ht

theorem vacate_indexed (hI : Indexed M c held) (hold : old ∈ c h)
    (hstay : ∀ l, stay = some l → ∀ k, l ∉ c k) :
    Indexed (vacate ⟨M, []⟩ old stay).commit (vacated c old stay) held := by
  have hlock := vacate_lock hI hold hstay
  refine ⟨(vacate_family hI.family hold hstay).1, fun k => ?_, fun k n hn => ?_⟩
  · rw [hlock, if_neg (by cases stay <;> simp)]
    exact hI.locks k
  · rw [hlock]
    rcases mem_vacated hn with hn | rfl
    · split_ifs
      · rfl
      · exact hI.bare k n hn
    · exact if_pos rfl

theorem vacate_exact (hI : Indexed M c held) (hold : old ∈ c h) :
    Exact M (vacate ⟨M, []⟩ old stay).recs := by
  refine ⟨?_, fun r hr => (vacate_current _ hI hold r hr).1⟩
  rw [vacate_places]
  exact around_nodup (hI.family.toChain h) hold

end Vacate

section Shift

variable [DecidableEq H] [DecidableEq N]

/-- `new` takes the place of `old`, or comes to the front of another chain; in that case `stay`
may take the place of `old`. -/
def shift (t : SwTxn H N) (old new : N) (stay : Option N) (h h' : H) : SwTxn H N :=
  if h = h' then blSwReplace t old new else blSwAddHead (vacate t old stay) new h'

def shifted (c : H → List N) (old new : N) (stay : Option N) (h h' : H) : H → List N :=
  if h = h' then fun k => (c k).map (update id old new)
  else update (vacated c old stay) h' (new :: vacated c old stay h')

variable {M : Mem H N} {c : H → List N} {held : H → Bool} {old new : N} {stay : Option N} {h h' : H}

theorem blSwAddHead_append (t : SwTxn H N) (hfirst : t.mem.first h = M.first h) :
    (blSwAddHead t new h).recs = t.recs ++ (blSwAddHead ⟨M, []⟩ new h).recs := by
  simp only [blSwAddHead, hfirst, nil_append]

variable (new) in
theorem blSwAddHead_current (hI : Indexed M c held) (hheld : held h = true) :
    ∀ r ∈ (blSwAddHead ⟨M, []⟩ new h).recs, r.Current M ∧ r.Even := by
  have hhead : (M.slot (.first h)).word = ⟨(c h).head?, false⟩ := hI.family.head_eq h
  have hslot : M.slot (.first h) = ⟨⟨M.first h, false⟩, true⟩ := by
    rw [Mem.first, hhead, ← hhead, ← hheld, ← hI.locks h]
  intro r hr
  rw [blSwAddHead, nil_append, mem_cons] at hr
  rcases hr with rfl | hr
  · exact ⟨hslot, rfl⟩
  · refine ⟨Rec.current_backRec (fun m hm => ?_) r hr, Rec.even_backRec r hr⟩
    have hc : (c h).head? = some m := by rw [← hm, Mem.first, hhead]
    obtain ⟨zs, hzs⟩ : ∃ zs, c h = [] ++ m :: zs := by
      cases hch : c h with
      | nil =>
        rw [hch] at hc
        cases hc
      | cons _ zs =>
        rw [hch] at hc
        exact ⟨zs, by simpa using hc⟩
    exact (hI.family.split hzs).1

omit [DecidableEq H] [DecidableEq N] in
theorem front_nodup (L : Links H N) (h : H) : (front L h).Nodup := by
  unfold front
  cases L.first h <;> simp

omit [DecidableEq H] [DecidableEq N] in
theorem around_front {L : Links H N} (hF : Family L c) (hold : old ∈ c h) (hh : h ≠ h') :
    (around L old).Disjoint (front L h') := by
  intro x hx hx'
  rw [mem_around] at hx
  simp only [front, mem_cons, mem_map, Option.mem_toList] at hx'
  rcases hx with ⟨e, he, rfl⟩ | ⟨m, hm, rfl⟩ | rfl
  · rcases hx' with hx' | ⟨m, -, hx'⟩
    · exact hF.pprev_ne_first hold he hh.symm (Sum.inl.inj hx')
    · cases hx'
  · rcases hx' with hx' | ⟨m', hm', hx'⟩
    · cases hx'
    · obtain rfl : m' = m := Sum.inr.inj hx'
      exact hh (hF.disjoint h h' m' (hF.next_mem hold hm) (hF.first_mem hm'))
  · rcases hx' with hx' | ⟨m, -, hx'⟩ <;> cases hx'

theorem shift_same (t : SwTxn H N) : shift t old new stay h h = vacate t old (some new) :=
  if_pos rfl

theorem shifted_same : shifted c old new stay h h = vacated c old (some new) :=
  if_pos rfl

variable (new stay h') in
theorem shift_exact (hI : Indexed M c held) (hold : old ∈ c h) (hheld : held h' = true) :
    Exact M (shift ⟨M, []⟩ old new stay h h').recs ∧
      ∀ r ∈ (shift ⟨M, []⟩ old new stay h h').recs, r.Even := by
  by_cases hh : h = h'
  · subst hh
    rw [shift_same]
    exact ⟨vacate_exact hI hold, fun r hr => (vacate_current _ hI hold r hr).2⟩
  · rw [shift, if_neg hh, blSwAddHead_append _ (vacate_mem_first h')]
    have hv := vacate_current stay hI hold
    have ha := blSwAddHead_current new hI hheld
    refine ⟨⟨?_, fun r hr => ?_⟩, fun r hr => ?_⟩
    · rw [map_append, vacate_places, blSwAddHead_places]
      exact (around_nodup (hI.family.toChain h) hold).append (front_nodup M.plain h')
        (around_front hI.family hold hh)
    · exact (mem_append.mp hr).elim (fun hr => (hv r hr).1) fun hr => (ha r hr).1
    · exact (mem_append.mp hr).elim (fun hr => (hv r hr).2) fun hr => (ha r hr).2

theorem shift_mem_lock (hh : h ≠ h') (s : Slot H N) :
    ((shift ⟨M, []⟩ old new stay h h').mem.slot s).lock =
      if s = .next new ∨ stay.map Slot.next = some s then false else (M.slot s).lock := by
  rw [shift, if_neg hh]
  simp only [blSwAddHead, Mem.setPprev_slot, Mem.store_lock, vacate_mem_lock]
  grind

theorem shift_lock (hI : Indexed M c held) (hold : old ∈ c h) (hheld : held h' = true)
    (hnew : ∀ k, new ∉ c k) (hstay : ∀ l, stay = some l → ∀ k, l ∉ c k) (hh : h ≠ h')
    (s : Slot H N) : ((shift ⟨M, []⟩ old new stay h h').commit.slot s).lock =
      if s = .next new ∨ stay.map Slot.next = some s then false else (M.slot s).lock := by
  obtain ⟨hE, heven⟩ := shift_exact new stay h' hI hold hheld
  have hout : ∀ n, (∀ k, n ∉ c k) →
      .inl (.next n) ∉ (shift ⟨M, []⟩ old new stay h h').recs.map Rec.place := by
    intro n hn hmem
    rw [shift, if_neg hh, blSwAddHead_append _ (vacate_mem_first h'), map_append,
      vacate_places, blSwAddHead_places, mem_append] at hmem
    rcases hmem with hmem | hmem
    · exact next_not_mem_around (hI.family.toChain h) hold (hn h) hmem
    · simp [front] at hmem
  rw [SwTxn.commit, Rec.lock_foldl hE.current heven fun t ht => ?_, shift_mem_lock hh]
  rw [shift_mem_lock hh, if_neg]
  rintro (rfl | he)
  · exact hout new hnew ht
  · obtain ⟨l, rfl, rfl⟩ := Option.map_eq_some_iff.mp he
    exact hout l (hstay l rfl) ht

theorem shift_inserted (hI : Indexed M c held) (hold : old ∈ c h) (hnew : ∀ k, new ∉ c k)
    (hstay : ∀ l, stay = some l → ∀ k, l ∉ c k) (hne : stay ≠ some new) (hh : h ≠ h') :
    Inserted (vacate ⟨M, []⟩ old stay).commit.plain (shift ⟨M, []⟩ old new stay h h').commit.plain
      h' new := by
  have hF₁ := (vacate_family hI.family hold hstay).1
  have hother : vacated c old stay h' = c h' :=
    vacated_other fun ho => hh (hI.family.disjoint h h' old hold ho)
  have hfirst : (vacate ⟨M, []⟩ old stay).commit.plain.first h' =
      (vacate ⟨M, []⟩ old stay).mem.first h' := by
    rw [vacate_mem_first, ← Mem.plain_first M, Links.first, Links.first, hF₁.head_eq,
      hI.family.head_eq, hother]
  have hnew₁ : ∀ k, new ∉ vacated c old stay k := fun k hk =>
    (mem_vacated hk).elim (hnew k) hne
  have hcommit : (shift ⟨M, []⟩ old new stay h h').commit.plain =
      (Bucketlock.blSwAddHead ⟨(vacate ⟨M, []⟩ old stay).commit.plain, []⟩ new h').commit := by
    rw [shift, if_neg hh, SwTxn.plain_commit, blSwAddHead_plain, blSwAddHead_commit _
      (vacate_avoids hI.family hold hnew), ← SwTxn.plain_commit]
    rw [← SwTxn.plain_commit]
    exact hfirst
  rw [hcommit]
  exact blSwAddHead_inserted hF₁ hnew₁

variable (stay h') in
theorem shift_indexed (hI : Indexed M c held) (hold : old ∈ c h) (hheld : held h' = true)
    (hnew : ∀ k, new ∉ c k) (hstay : ∀ l, stay = some l → ∀ k, l ∉ c k) (hne : stay ≠ some new) :
    Indexed (shift ⟨M, []⟩ old new stay h h').commit (shifted c old new stay h h') held ∧
      ∀ n, (shift ⟨M, []⟩ old new stay h h').commit.marked n = true ∧ M.marked n = false ↔
        n = old := by
  have hlive : M.marked old = false := hI.family.not_marked hold
  have hon : old ≠ new := fun he => hnew h (he ▸ hold)
  by_cases hh : h = h'
  · subst hh
    have hout : ∀ l, some new = some l → ∀ k, l ∉ c k := fun l hl => Option.some.inj hl ▸ hnew
    rw [shift_same, shifted_same]
    refine ⟨vacate_indexed hI hold hout, fun n => ?_⟩
    rw [(vacate_family hI.family hold hout).2]
    grind
  · obtain ⟨hF₁, hmarks⟩ := vacate_family hI.family hold hstay
    have hIns := shift_inserted hI hold hnew hstay hne hh
    have hlock := shift_lock hI hold hheld hnew hstay hh
    have hnew₁ : ∀ k, new ∉ vacated c old stay k := fun k hk =>
      (mem_vacated hk).elim (hnew k) hne
    refine ⟨⟨?_, fun k => ?_, fun k n hn => ?_⟩, fun n => ?_⟩
    · rw [shifted, if_neg hh]
      exact hF₁.inserted_cons hnew₁ hIns
    · rw [hlock, if_neg (by cases stay <;> simp)]
      exact hI.locks k
    · rw [hlock]
      split_ifs with hout
      · rfl
      · rw [not_or] at hout
        rw [shifted, if_neg hh] at hn
        have hn' : n = new ∨ n ∈ vacated c old stay k := by
          by_cases hk : k = h'
          · subst hk
            rw [update_self] at hn
            exact mem_cons.mp hn
          · rw [update_of_ne hk] at hn
            exact .inr hn
        rcases hn' with rfl | hn'
        · exact absurd rfl hout.1
        · rcases mem_vacated hn' with hn' | rfl
          · exact hI.bare k n hn'
          · exact absurd rfl hout.2
    · have hmark : (shift ⟨M, []⟩ old new stay h h').commit.marked n = _ := hIns.marked n
      rw [hmark, show (vacate ⟨M, []⟩ old stay).commit.plain.marked n = _ from hmarks n]
      grind

end Shift

/-! The whole move. -/

inductive FieldRec where
  | top (host : ℕ) (old new : Option ℕ)
  | parent (host old new : ℕ)

structure DcTxn where
  hash : SwTxn ℕ ℕ
  sib : SwTxn ℕ ℕ
  top : ℕ → Option ℕ
  parent : ℕ → ℕ
  fields : List FieldRec

def stackOnePrepare (t : DcTxn) (top host newParent newBucket fromBucket shell : ℕ)
    (crossParent : Bool) (lg : Option ℕ) : DcTxn :=
  let t₁ := if fromBucket = newBucket then { t with hash := blSwReplace t.hash top shell }
    else { t with hash := blSwAddHead (blSwDelMarked t.hash top) shell newBucket }
  let t₂ := if !crossParent then { t₁ with sib := blSwReplace t₁.sib top shell }
    else
      let sib := match lg with
        | some l => blSwReplace t₁.sib top l
        | none => blSwDelMarked t₁.sib top
      { t₁ with sib := blSwAddHead sib shell newParent }
  let t₃ := { t₂ with fields := t₂.fields ++ [.top host (DCache.dtopVal host top) (some shell)] }
  if crossParent then
    { t₃ with fields := t₃.fields ++ [.parent host (t₃.parent host) newParent] }
  else t₃

inductive Place where
  | hash (x : Slot ℕ ℕ ⊕ ℕ)
  | sib (x : Slot ℕ ℕ ⊕ ℕ)
  | top (host : ℕ)
  | parent (host : ℕ)

namespace FieldRec

def place : FieldRec → Place
  | .top host _ _ => .top host
  | .parent host _ _ => .parent host

def Current (top : ℕ → Option ℕ) (parent : ℕ → ℕ) : FieldRec → Prop
  | .top host old _ => top host = old
  | .parent host old _ => parent host = old

def settle (f : (ℕ → Option ℕ) × (ℕ → ℕ)) : FieldRec → (ℕ → Option ℕ) × (ℕ → ℕ)
  | .top host _ new => (update f.1 host new, f.2)
  | .parent host _ new => (f.1, update f.2 host new)

end FieldRec

namespace DcTxn

def begin (hash sib : Mem ℕ ℕ) (top : ℕ → Option ℕ) (parent : ℕ → ℕ) : DcTxn :=
  ⟨⟨hash, []⟩, ⟨sib, []⟩, top, parent, []⟩

def places (t : DcTxn) : List Place :=
  (t.hash.recs.map Rec.place).map .hash ++ (t.sib.recs.map Rec.place).map .sib ++
    t.fields.map FieldRec.place

def commitFields (t : DcTxn) : (ℕ → Option ℕ) × (ℕ → ℕ) :=
  t.fields.foldl FieldRec.settle (t.top, t.parent)

end DcTxn

section Stack

variable {t : DcTxn} {hash sib : Mem ℕ ℕ} {topOf : ℕ → Option ℕ} {parentOf : ℕ → ℕ}
  {top host fromParent newParent newBucket fromBucket shell : ℕ} {lg : Option ℕ}

theorem stackOnePrepare_hash {cross : Bool} :
    (stackOnePrepare t top host newParent newBucket fromBucket shell cross lg).hash =
      shift t.hash top shell none fromBucket newBucket := by
  unfold stackOnePrepare shift
  split_ifs <;> rfl

theorem stackOnePrepare_sib :
    (stackOnePrepare t top host newParent newBucket fromBucket shell
      (decide (fromParent ≠ newParent)) lg).sib =
      shift t.sib top shell lg fromParent newParent := by
  unfold stackOnePrepare shift
  by_cases hp : fromParent = newParent
  · simp only [hp, ne_eq, not_true, decide_false, Bool.not_false, if_true, Bool.false_eq_true,
      if_false]
    split_ifs <;> rfl
  · simp only [hp, ne_eq, not_false_eq_true, decide_true, Bool.not_true, if_true,
      Bool.false_eq_true, if_false]
    cases lg <;> split_ifs <;> rfl

theorem stackOnePrepare_fields {cross : Bool} :
    (stackOnePrepare t top host newParent newBucket fromBucket shell cross lg).fields =
      t.fields ++ .top host (DCache.dtopVal host top) (some shell) ::
        if cross then [.parent host (t.parent host) newParent] else [] := by
  unfold stackOnePrepare
  cases cross <;> simp <;> split_ifs <;> rfl

theorem stackOnePrepare_commitFields :
    (stackOnePrepare (.begin hash sib topOf parentOf) top host newParent newBucket fromBucket shell
      (decide (fromParent ≠ newParent)) lg).commitFields =
        (update topOf host (some shell),
          if fromParent = newParent then parentOf else update parentOf host newParent) := by
  have hmem : ∀ cross, (stackOnePrepare (.begin hash sib topOf parentOf) top host newParent newBucket
      fromBucket shell cross lg).top = topOf ∧ (stackOnePrepare (.begin hash sib topOf parentOf) top
      host newParent newBucket fromBucket shell cross lg).parent = parentOf := by
    intro cross
    unfold stackOnePrepare
    cases cross <;> simp <;> split_ifs <;> exact ⟨rfl, rfl⟩
  unfold DcTxn.commitFields
  rw [stackOnePrepare_fields, (hmem _).1, (hmem _).2]
  by_cases hp : fromParent = newParent
  · simp [hp, DcTxn.begin, FieldRec.settle]
  · simp [hp, DcTxn.begin, FieldRec.settle]

/-- Without a lingering entry these are the records of the move of the machine. -/
theorem stackOnePrepare_plain {Name : Type} (d : DCache Name) (hhash : hash.plain = d.hash)
    (hsib : sib.plain = d.sib) (cross : Bool) :
    let t := stackOnePrepare (.begin hash sib (fun a => (d.dentry a).top) fun a =>
      (d.dentry a).parent) top host newParent newBucket fromBucket shell cross none
    let t' := DCache.stackOnePrepare (.begin d) top host newParent newBucket fromBucket shell cross
    t.hash.plain = t'.hash ∧ t.sib.plain = t'.sib ∧
      t.fields = t'.top.map (fun r => .top r.1 r.2.1 r.2.2) ++
        t'.parent.map fun r => .parent r.1 r.2.1 r.2.2 := by
  have hbegin : ∀ {M : Mem ℕ ℕ} {L : Links ℕ ℕ}, M.plain = L →
      SwTxn.plain ⟨M, []⟩ = ⟨L, []⟩ := by
    rintro M L rfl
    rfl
  unfold stackOnePrepare DCache.stackOnePrepare
  cases cross <;> by_cases hb : fromBucket = newBucket <;>
    simp [hb, DcTxn.begin, Bucketlock.DcTxn.begin, Bucketlock.DcTxn.storeTop,
      Bucketlock.DcTxn.storeParent, blSwReplace_plain, blSwAddHead_plain, blSwDelMarked_plain,
      hbegin hhash, hbegin hsib]

structure Moves (hash sib : Mem ℕ ℕ) (topOf : ℕ → Option ℕ) (parentOf : ℕ → ℕ) (t : DcTxn)
    (ch cs : ℕ → List ℕ) (heldHash heldSib : ℕ → Bool) (top : ℕ) : Prop where
  once : t.places.Nodup
  hashCurrent : ∀ r ∈ t.hash.recs, r.Current hash
  sibCurrent : ∀ r ∈ t.sib.recs, r.Current sib
  fieldCurrent : ∀ r ∈ t.fields, r.Current topOf parentOf
  hashIndex : Indexed t.hash.commit ch heldHash
  sibIndex : Indexed t.sib.commit cs heldSib
  hashMarks : ∀ n, t.hash.commit.marked n = true ∧ hash.marked n = false ↔ n = top
  sibMarks : ∀ n, t.sib.commit.marked n = true ∧ sib.marked n = false ↔ n = top

variable {ch cs : ℕ → List ℕ} {heldHash heldSib : ℕ → Bool}

/-- The records of `stack_one_prepare` are exact, and settled they take the top out of both
indexes and put the shell into the bucket of the new name and the child list of the new parent:
in the place of the top where the head is the same, at the front otherwise. A lingering entry
takes the place of the top in the old child list. -/
theorem stackOnePrepare_moves (hH : Indexed hash ch heldHash) (hS : Indexed sib cs heldSib)
    (htop : top ∈ ch fromBucket) (hsib : top ∈ cs fromParent)
    (hlockHash : heldHash newBucket = true) (hlockSib : heldSib newParent = true)
    (hshell : ∀ k, shell ∉ ch k) (hshell' : ∀ k, shell ∉ cs k)
    (hlg : ∀ l, lg = some l → ∀ k, l ∉ cs k) (hne : lg ≠ some shell)
    (hdtop : topOf host = DCache.dtopVal host top) :
    Moves hash sib topOf parentOf
      (stackOnePrepare (.begin hash sib topOf parentOf) top host newParent newBucket fromBucket shell
        (decide (fromParent ≠ newParent)) lg)
      (shifted ch top shell none fromBucket newBucket) (shifted cs top shell lg fromParent newParent)
      heldHash heldSib top ∧
    (stackOnePrepare (.begin hash sib topOf parentOf) top host newParent newBucket fromBucket shell
      (decide (fromParent ≠ newParent)) lg).commitFields =
        (update topOf host (some shell),
          if fromParent = newParent then parentOf else update parentOf host newParent) := by
  obtain ⟨hHi, hHm⟩ := shift_indexed none newBucket hH htop hlockHash hshell
    nofun nofun
  obtain ⟨hSi, hSm⟩ := shift_indexed lg newParent hS hsib hlockSib hshell' hlg hne
  have hHe := (shift_exact shell none newBucket hH htop hlockHash).1
  have hSe := (shift_exact shell lg newParent hS hsib hlockSib).1
  refine ⟨⟨?_, ?_, ?_, ?_, ?_, ?_, ?_, ?_⟩, ?_⟩
  · unfold DcTxn.places
    rw [stackOnePrepare_hash, stackOnePrepare_sib, stackOnePrepare_fields]
    have h₁ := hHe.once.map (f := Place.hash) fun _ _ h => Place.hash.inj h
    have h₂ := hSe.once.map (f := Place.sib) fun _ _ h => Place.sib.inj h
    refine (h₁.append h₂ ?_).append ?_ ?_
    · intro x hx hx'
      obtain ⟨y, -, rfl⟩ := mem_map.mp hx
      obtain ⟨z, -, hz⟩ := mem_map.mp hx'
      cases hz
    · split_ifs <;> simp [DcTxn.begin, FieldRec.place]
    · intro x hx hx'
      have hfield : (∃ k, x = .top k) ∨ ∃ k, x = .parent k := by
        obtain ⟨r, -, rfl⟩ := mem_map.mp hx'
        cases r with
        | top host => exact .inl ⟨host, rfl⟩
        | parent host => exact .inr ⟨host, rfl⟩
      rcases mem_append.mp hx with hx | hx <;> obtain ⟨y, -, rfl⟩ := mem_map.mp hx <;>
        rcases hfield with ⟨k, hk⟩ | ⟨k, hk⟩ <;> cases hk
  · rw [stackOnePrepare_hash]
    exact hHe.current
  · rw [stackOnePrepare_sib]
    exact hSe.current
  · rw [stackOnePrepare_fields]
    intro r hr
    simp only [DcTxn.begin, nil_append, mem_cons] at hr
    rcases hr with rfl | hr
    · exact hdtop
    · split_ifs at hr
      · obtain rfl := mem_singleton.mp hr
        rfl
      · cases hr
  · rw [stackOnePrepare_hash]
    exact hHi
  · rw [stackOnePrepare_sib]
    exact hSi
  · rw [stackOnePrepare_hash]
    exact hHm
  · rw [stackOnePrepare_sib]
    exact hSm
  · exact stackOnePrepare_commitFields

def oneNode (h n : ℕ) (held : ℕ → Bool) : Mem ℕ ℕ where
  slot
    | .first k => ⟨⟨if k = h then some n else none, false⟩, held k⟩
    | .next _ => ⟨⟨none, false⟩, false⟩
  pprev k := if k = n then some (.first h) else none

theorem oneNode_indexed (h n : ℕ) (held : ℕ → Bool) :
    Indexed (oneNode h n held) (fun k => if k = h then [n] else []) held := by
  refine ⟨⟨fun k => ?_, fun k => ?_, fun k k' m hm hm' => ?_⟩, fun _ => rfl, fun _ _ _ => rfl⟩
  · by_cases hk : k = h
    · subst hk
      simp [Linked, Seg, endSlot, oneNode, Mem.plain]
    · simp [hk, Linked, Seg, endSlot, oneNode, Mem.plain]
  · split_ifs <;> simp
  · grind

/-- A directory moves to another parent and bucket, and an entry lingers where it was. -/
theorem stackOnePrepare_moves_linger :
    Indexed (stackOnePrepare (.begin (oneNode 0 1 fun _ => true) (oneNode 0 1 fun _ => true)
      (fun _ => none) fun _ => 0) 1 1 2 5 0 3 (decide (0 ≠ 2)) (some 4)).sib.commit
      (shifted (fun k => if k = 0 then [1] else []) 1 3 (some 4) 0 2) fun _ => true := by
  refine (stackOnePrepare_moves (oneNode_indexed 0 1 _) (oneNode_indexed 0 1 _) ?_ ?_ ?_ ?_ ?_ ?_
    ?_ ?_ ?_).1.sibIndex
  · decide
  · decide
  · rfl
  · rfl
  · intro k
    split_ifs <;> simp
  · intro k
    split_ifs <;> simp
  · rintro l ⟨⟩ k
    split_ifs <;> simp
  · decide
  · rfl

end Stack

end TrieBenchmark.Bucketlock.Locked
