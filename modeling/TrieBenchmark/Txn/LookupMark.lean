import TrieBenchmark.Txn.Lookup
import TrieBenchmark.Txn.LookupCall

/-!
Lookups of the mark arm. What a lookup reads it reads at one state of its call; the tops it has
latched do not come back once they are out of the index, so that the marks it tests at the end
speak for every state in between.
-/

namespace TrieBenchmark.Txn

open List Edits Run

variable {Name : Type} {d d' v : Cache Name} {touched back : Option ℕ} {S A B : Set ℕ}
  {V : Set (Cache Name)} {latched : List (ℕ × ℕ)}

structure Since (v d : Cache Name) (A : Set ℕ) : Prop where
  index : IndexOk v
  live : ∀ a ∈ A, d.linked a → v.linked a
  key : ∀ a ∈ A, (v.dentry a).iparent = (d.dentry a).iparent ∧
    (v.dentry a).iname = (d.dentry a).iname
  host : ∀ a ∈ A, v.hostOf a = d.hostOf a

theorem Since.refl (hI : IndexOk d) : Since d d A :=
  ⟨hI, fun _ _ h => h, fun _ _ => ⟨rfl, rfl⟩, fun _ _ => rfl⟩

theorem Since.step (hA : Since v d A) (hsub : A ⊆ S) (hS : Settled d S)
    (hH : IndexStep d touched back d') (hf : Spares touched back S) : Since v d' A := by
  refine ⟨hA.index, fun a ha hl => ?_, fun a ha => ?_, fun a ha => ?_⟩
  · rcases hH.came a hl with h | h | h
    · exact hA.live a ha h
    · exact absurd (hS a (hsub ha)).1 (Nat.not_lt.mpr h)
    · exact absurd h (hf.back a (hsub ha))
  · obtain ⟨hp, hn⟩ := hH.key a (hS a (hsub ha)).1 (hf.key a (hsub ha))
    exact ⟨(hA.key a ha).1.trans hp.symm, (hA.key a ha).2.trans hn.symm⟩
  · exact (hA.host a ha).trans (hH.kind.hostOf (hS a (hsub ha)).1).symm

def Held (V : Set (Cache Name)) (d : Cache Name) (S B : Set ℕ) (Q : Cache Name → Prop) : Prop :=
  ∃ v ∈ V, ∃ A ⊆ S, B ⊆ A ∧ Since v d A ∧ Q v

theorem Held.now {Q : Cache Name → Prop} (hd : d ∈ V) (hI : IndexOk d) (hB : B ⊆ S) (hQ : Q d) :
    Held V d S B Q :=
  ⟨d, hd, S, fun _ ha => ha, hB, .refl hI, hQ⟩

theorem Held.step {Q : Cache Name → Prop} (hQ : Held V d S B Q) (hS : Settled d S)
    (hH : IndexStep d touched back d') (hf : Spares touched back S) :
    Held (insert d' V) d' (S ∪ {a | d'.linked a}) B Q := by
  obtain ⟨v, hv, A, hA, hB, hs, hq⟩ := hQ
  exact ⟨v, .inr hv, A, fun a ha => .inl (hA ha), hB, hs.step hA hS hH hf, hq⟩

theorem Held.imp {Q Q' : Cache Name → Prop} (hQ : Held V d S B Q)
    (h : ∀ v A, B ⊆ A → Since v d A → Q v → Q' v) : Held V d S B Q' := by
  obtain ⟨v, hv, A, hA, hB, hs, hq⟩ := hQ
  exact ⟨v, hv, A, hA, hB, hs, h v A hB hs hq⟩

def tops (latched : List (ℕ × ℕ)) : Set ℕ :=
  {a | a ∈ latched.map Prod.fst}

structure Walking (d : Cache Name) (S : Set ℕ) (path rest : List Name) (cur : ℕ)
    (latched : List (ℕ × ℕ)) : Prop where
  latches : ∃ names, path = names ++ rest ∧ Latches d root names latched
  mem : tops latched ⊆ S
  cur : cur = endHost root latched

theorem Walking.start (path : List Name) : Walking d S path path root [] :=
  ⟨⟨[], rfl, trivial⟩, fun _ ha => absurd ha not_mem_nil, rfl⟩

theorem Walking.step {path rest : List Name} {cur : ℕ}
    (hW : Walking d S path rest cur latched) (hS : Settled d S)
    (hH : IndexStep d touched back d') (hf : Spares touched back S) :
    Walking d' (S ∪ {a | d'.linked a}) path rest cur latched := by
  obtain ⟨⟨names, hpath, hL⟩, hmem, hcur⟩ := hW
  refine ⟨⟨names, hpath, hL.congr fun p hp => ?_⟩, fun a ha => .inl (hmem ha), hcur⟩
  have hp : p.1 ∈ S := hmem (mem_map_of_mem hp)
  obtain ⟨hk, hn⟩ := hH.key p.1 (hS _ hp).1 (hf.key _ hp)
  exact ⟨hk, hn, hH.kind.hostOf (hS _ hp).1⟩

theorem Walking.latch {path rest : List Name} {cur top : ℕ} {name : Name}
    (hW : Walking d S path (name :: rest) cur latched) (hL : Latched d S top cur name) :
    Walking d S path rest (d.hostOf top) (latched ++ [(top, d.hostOf top)]) := by
  obtain ⟨⟨names, hpath, hl⟩, hmem, hcur⟩ := hW
  refine ⟨⟨names ++ [name], by simp [hpath], hl.append (hL.2.1.trans hcur) hL.2.2⟩, ?_, ?_⟩
  · intro a ha
    obtain ⟨p, hp, rfl⟩ := mem_map.mp ha
    rcases mem_append.mp hp with hp | hp
    · exact hmem (mem_map_of_mem hp)
    · obtain rfl := mem_singleton.mp hp
      exact hL.1
  · simp [endHost]

variable [DecidableEq Name]

/-- A scan of one chain: the name has been missing in a state of the call, or the scan will meet
it. -/
def Hunt (V : Set (Cache Name)) (d : Cache Name) (S : Set ℕ) (h : Hop Name) (node : Option ℕ) :
    Prop :=
  Held V d S (tops h.latched) (Missing · h.cur h.name) ∨
    ∃ n, node = some n ∧ OnTrack d S h.cur h.name n

def Verdict (v : Cache Name) (rest : List Name) (latched : List (ℕ × ℕ)) (res : DcResult) : Prop :=
  rest = [] ∧ StateAt v latched res ∨
    ∃ name, name ∈ rest.head? ∧ res = .absent ∧ Missing v (endHost root latched) name

def LookupOk (path : List Name) (V : Set (Cache Name)) (d : Cache Name) (S : Set ℕ) :
    Pc Name → Prop
  | .lkHop p _ cur rest latched res => p = path ∧ Walking d S path rest cur latched ∧
      Held V d S (tops latched) (StateAt · latched res)
  | .lkScan h node => h.path = path ∧ Walking d S path (h.name :: h.rest) h.cur h.latched ∧
      Hunt V d S h node
  | .lkName h n raw => h.path = path ∧ Walking d S path (h.name :: h.rest) h.cur h.latched ∧
      Hunt V d S h (some n) ∧ Held V d S (insert n (tops h.latched)) (fun v => v.raw n = raw)
  | .lkNext h n => h.path = path ∧ Walking d S path (h.name :: h.rest) h.cur h.latched ∧
      Hunt V d S h (some n) ∧ n ∈ S ∧
      ¬ ((d.dentry n).iparent = h.cur ∧ (d.dentry n).iname = h.name)
  | .lkConfirm h top raw stamp => h.path = path ∧ stamp = top ∧
      Walking d S path (h.name :: h.rest) h.cur h.latched ∧
      Held V d S (insert top (tops h.latched)) (fun v => v.raw top = raw)
  | .lkState h top raw stamp => h.path = path ∧ stamp = top ∧
      Walking d S path (h.name :: h.rest) h.cur h.latched ∧
      Held V d S (insert top (tops h.latched)) (fun v => v.raw top = raw)
  | .lkUp p latched todo res => p = path ∧ ∃ rest tested, latched = tested ++ todo ∧
      Walking d S path rest (endHost root latched) latched ∧
      Held V d S (tops latched) (fun v => Verdict v rest latched res ∧ ∀ q ∈ tested, v.linked q.1)
  | _ => False

variable {path : List Name} {pc : Pc Name}

theorem Hunt.effect {h : Hop Name} {node : Option ℕ} (hE : Effect .mark
      (Checked.OfRename fun _ neg => ∀ a, neg = some a → (d.dentry a).neg = true) d touched back d')
    (hI : IndexOk d) (hM : Meets d S) (hB : SameBucket d S) (hf : Spares touched back S)
    (hd : d ∈ V) (hmem : tops h.latched ⊆ S) (hH : Hunt V d S h node) :
    Hunt (insert d' V) d' (S ∪ {a | d'.linked a}) h node := by
  have hS := hE.indexStep hI
  rcases hH with hQ | ⟨n, rfl, hT⟩
  · exact .inl (hQ.step hM.settled hS hf)
  · by_cases hm : Missing d h.cur h.name
    · exact .inl ((Held.now hd hI hmem hm).step hM.settled hS hf)
    · by_cases hm' : Missing d' h.cur h.name
      · exact .inl (.now (.inl rfl) (hE.indexOk hI) (fun a ha => .inl (hmem ha)) hm')
      · exact .inr ⟨n, rfl, hT.effect hE (fun _ _ h => h) hI hM hB hf hm hm'⟩

theorem LookupOk.effect (hE : Effect .mark
      (Checked.OfRename fun _ neg => ∀ a, neg = some a → (d.dentry a).neg = true) d touched back d')
    (hI : IndexOk d) (hM : Meets d S) (hB : SameBucket d S) (hf : Spares touched back S)
    (hd : d ∈ V) (hL : LookupOk path V d S pc) :
    LookupOk path (insert d' V) d' (S ∪ {a | d'.linked a}) pc := by
  have hH := hE.indexStep hI
  have hS := hM.settled
  cases pc with
  | lkHop =>
    exact ⟨hL.1, hL.2.1.step hS hH hf, hL.2.2.step hS hH hf⟩
  | lkScan =>
    exact ⟨hL.1, hL.2.1.step hS hH hf, hL.2.2.effect hE hI hM hB hf hd hL.2.1.mem⟩
  | lkName =>
    exact ⟨hL.1, hL.2.1.step hS hH hf, hL.2.2.1.effect hE hI hM hB hf hd hL.2.1.mem,
      hL.2.2.2.step hS hH hf⟩
  | lkNext _ n =>
    obtain ⟨hp, hW, hT, hn, hno⟩ := hL
    refine ⟨hp, hW.step hS hH hf, hT.effect hE hI hM hB hf hd hW.mem, .inl hn, ?_⟩
    obtain ⟨hk, hk'⟩ := hH.key n (hS n hn).1 (hf.key n hn)
    rwa [hk, hk']
  | lkConfirm | lkState =>
    exact ⟨hL.1, hL.2.1, hL.2.2.1.step hS hH hf, hL.2.2.2.step hS hH hf⟩
  | lkUp =>
    obtain ⟨hp, rest, tested, hl, hW, hQ⟩ := hL
    exact ⟨hp, rest, tested, hl, hW.step hS hH hf, hQ.step hS hH hf⟩
  | _ => cases hL

theorem LookupOk.start (hd : d ∈ V) (hI : IndexOk d) (path : List Name) :
    LookupOk path V d S (.lkStart .mark path) :=
  ⟨rfl, .start path, .now hd hI (fun _ ha => absurd ha not_mem_nil) rfl⟩

theorem Hunt.head {h : Hop Name} (hd : d ∈ V) (hI : IndexOk d) (hM : Meets d S)
    (hmem : tops h.latched ⊆ S) :
    Hunt V d S h (d.hash (d.bucketOf h.cur h.name)).head? := by
  by_cases hm : Missing d h.cur h.name
  · exact .inl (.now hd hI hmem hm)
  · obtain ⟨z, hz, hp, hn, -⟩ := not_missing hI hm
    obtain ⟨w, hw, hT⟩ := OnTrack.head hI hM hz hp hn
    exact .inr ⟨w, hw, hT⟩

theorem Hunt.next {h : Hop Name} {n : ℕ} (hI : IndexOk d) (hM : Meets d S) (hB : SameBucket d S)
    (hT : Hunt V d S h (some n))
    (hno : ¬ ((d.dentry n).iparent = h.cur ∧ (d.dentry n).iname = h.name)) :
    Hunt V d S h (d.next n) := by
  rcases hT with hQ | ⟨m, hm, hT⟩
  · exact .inl hQ
  · obtain rfl := Option.some.inj hm
    obtain ⟨w, hw, hT'⟩ := hT.next hI hM hB fun hs => hno hs.2
    exact .inr ⟨w, hw, hT'⟩

omit [DecidableEq Name] in
/-- The state word a lookup takes for the entry is that of the host in a state of the call: the
word of a settled top was read with its name, that of a shell's host is read now. -/
theorem Held.state {top : ℕ} {raw : StateWord} (hd : d ∈ V)
    (hI : IndexOk d) (hmem : tops latched ⊆ S) (htop : top ∈ S)
    (hQ : Held V d S (insert top (tops latched)) (fun v => v.raw top = raw)) :
    Held V d S (tops (latched ++ [(top, d.hostOf top)]))
      (StateAt · (latched ++ [(top, d.hostOf top)])
        (if (if raw.shell then (d.raw (d.hostOf top)).neg else raw.neg) then .negative
          else .positive)) := by
  have htops : tops (latched ++ [(top, d.hostOf top)]) = insert top (tops latched) := by
    ext a
    simp [tops, or_comm]
  rw [htops]
  cases hs : raw.shell with
  | true =>
    refine .now hd hI (Set.insert_subset htop hmem) ?_
    simp [StateAt]
  | false =>
    refine hQ.imp fun v A hA hv hraw => ?_
    have hshell : (v.dentry top).shell = false := by
      rw [← hs, ← hraw]
      rfl
    have hhost : d.hostOf top = top := by
      rw [← hv.host top (hA (.inl rfl)), Cache.hostOf_of_host hshell]
    simp [StateAt, hhost, hraw]

/-- The last test of a lookup makes its verdict the right answer in one state of the call. -/
theorem Verdict.answers {rest : List Name} {res : DcResult}
    (hW : Walking d S path rest (endHost root latched) latched)
    (hQ : Held V d S (tops latched) (fun v => Verdict v rest latched res ∧
      ∀ q ∈ latched, v.linked q.1)) :
    ∃ v ∈ V, Answers v path (latched.map Prod.snd) res := by
  obtain ⟨v, hv, A, -, hA, hs, hV, hl⟩ := hQ
  obtain ⟨⟨names, rfl, hL⟩, -, -⟩ := hW
  have hL' : Latches v root names latched := by
    refine hL.congr fun p hp => ?_
    have hpA : p.1 ∈ A := hA (mem_map_of_mem hp)
    exact ⟨(hs.key _ hpA).1, (hs.key _ hpA).2, hs.host _ hpA⟩
  have hwalk := hL'.walked hs.index hl
  have hlen : names.length = (latched.map Prod.snd).length := by simpa using hL.length
  refine ⟨v, hv, ?_⟩
  rcases hV with ⟨rfl, hst⟩ | ⟨name, hname, rfl, hm⟩
  · rw [append_nil]
    exact hwalk.answers hst
  · refine ⟨?_, name, ?_, hm⟩
    · rw [← hlen, take_left']
      · exact hwalk
      · rfl
    · rw [← hlen]
      cases rest with
      | nil => cases hname
      | cons => simpa using hname

theorem LookupOk.stepPc {ans : Answer} (hd : d ∈ V) (hI : IndexOk d) (hM : Meets d S)
    (hB : SameBucket d S) (hP : PcOk .mark d S pc) (hL : LookupOk path V d S pc) :
    LookupOk path V d S (stepPc .mark d pc ans).2 ∨ ∃ res hosts,
      (Txn.stepPc .mark d pc ans).2 = .done (.lookup res hosts) ∧ ∃ v ∈ V, Answers v path hosts res := by
  cases pc with
  | lkHop _ _ _ rest =>
    obtain ⟨rfl, hW, hQ⟩ := hL
    cases rest with
    | nil =>
      refine .inl ⟨rfl, [], [], rfl, ?_, hQ.imp fun v _ _ _ h => ⟨.inl ⟨rfl, h⟩, by simp⟩⟩
      rw [← hW.cur]
      exact hW
    | cons => exact .inl ⟨rfl, hW, .head hd hI hM hW.mem⟩
  | lkScan h node =>
    obtain ⟨hp, hW, hT⟩ := hL
    cases node with
    | none =>
      rcases hT with hQ | ⟨n, hn, -⟩
      · refine .inl ⟨hp, h.name :: h.rest, [], rfl, ?_, hQ.imp fun v _ _ _ hm => ⟨.inr ?_, by simp⟩⟩
        · rw [← hW.cur]
          exact hW
        · exact ⟨h.name, rfl, rfl, by rwa [← hW.cur]⟩
      · cases hn
    | some =>
      simp only [Txn.stepPc]
      split_ifs with hpar
      · refine .inl ⟨hp, hW, hT, .now hd hI (Set.insert_subset hP hW.mem) rfl⟩
      · exact .inl ⟨hp, hW, hT, hP, fun hk => hpar hk.1⟩
  | lkName =>
    obtain ⟨hp, hW, hT, hQ⟩ := hL
    simp only [Txn.stepPc]
    split_ifs with hn
    · exact .inl ⟨hp, rfl, hW, hQ⟩
    · exact .inl ⟨hp, hW, hT, hP.1, fun hk => hn hk.2⟩
  | lkNext =>
    obtain ⟨hp, hW, hT, hn, hno⟩ := hL
    exact .inl ⟨hp, hW, hT.next hI hM hB hno⟩
  | lkConfirm =>
    obtain ⟨hp, hst, hW, hQ⟩ := hL
    simp only [Txn.stepPc]
    split_ifs with hm
    · rw [hp]
      exact .inl (.start hd hI path)
    · exact .inl ⟨hp, hst, hW, hQ⟩
  | lkState =>
    obtain ⟨hp, rfl, hW, hQ⟩ := hL
    exact .inl ⟨hp, hW.latch hP, hQ.state hd hI hW.mem hP.1⟩
  | lkUp p latched todo res =>
    obtain ⟨rfl, rest, tested, hl, hW, hQ⟩ := hL
    cases todo with
    | nil =>
      rw [append_nil] at hl
      subst hl
      exact .inr ⟨res, _, rfl, Verdict.answers hW hQ⟩
    | cons q =>
      simp only [Txn.stepPc]
      split_ifs with hm
      · exact .inl (.start hd hI p)
      · -- an unmarked top is in the index, and was in the state of the verdict
        have hq : q.1 ∈ tops latched := mem_map_of_mem (by simp [hl])
        have hlt := hM.settled q.1 (hW.mem hq)
        have hlinked := (hI.live q.1 hlt.1 hlt.2).mp (by simpa using hm)
        refine .inl ⟨rfl, rest, tested ++ [q], by simp [hl], hW, hQ.imp fun v A hA hs h =>
          ⟨h.1, fun q' hq' => ?_⟩⟩
        rcases mem_append.mp hq' with h' | h'
        · exact h.2 q' h'
        · obtain rfl := mem_singleton.mp h'
          exact hs.live _ (hA hq) hlinked
  | _ => cases hL

theorem LookupOk.live (hL : LookupOk path V d S pc) : pc.busy = true ∧ pc.reads = true := by
  cases pc <;> first | exact ⟨rfl, rfl⟩ | cases hL

variable {s : Sys Name} {vs : List (Sys Name)} {t : ℕ}

theorem lookupCall_mark (t : ℕ) (path : List Name) : LookupCall .mark Sys.StillNegative t path
    (fun s S => Inv .mark s S ∧ NegRecorded s)
    (fun V d S pc => SameBucket d S ∧ LookupOk path V d S pc)
    (fun V hosts res => ∃ v ∈ V, Answers v path hosts res) := by
  constructor
  case inv => exact fun h => h.1
  case act => exact fun h hok ha => ⟨h.1.act ha, h.2.act hok ha⟩
  case start =>
    intro s S V hK hd
    exact ⟨fun a ha b hb => hK.1.index.bucket_next ha hb, .start hd hK.1.index path⟩
  case live => exact fun hL => hL.2.live
  case effect =>
    intro s S a s' V hK hok ha hb hd ⟨hB, hL⟩
    have hM := (hK.1.seen t hb).toMeets
    obtain ⟨touched, back, hE, hf, -⟩ := hK.1.effect_of_act
      (C := Checked.OfRename fun _ neg => ∀ a, neg = some a → (s.d.dentry a).neg = true) ha
      fun _ _ _ _ hc => hc.ofRename fun _ _ _ _ hpc hh => hK.2.replaced hpc hh
    exact ⟨hB.step hM (hK.1.act ha).index (hE.indexStep hK.1.index) (hf t hb),
      hL.effect hE hK.1.index hM hB (hf t hb) hd⟩
  case step =>
    intro s S V ans hK hb hd ⟨hB, hL⟩
    have hM := (hK.1.seen t hb).toMeets
    exact (hL.stepPc hd hK.1.index hM hB (hK.1.pcOk t)).imp (fun h => ⟨hB, h⟩) id

/-- The answer of every lookup is right at one instant of its call, in every run whose renames
read the occupant they replace negative when they record it. -/
theorem lookup_right_at_instant {bucketOf : ℕ → Name → ℕ} {rootname : Name} {s₀ s₁ : Sys Name}
    {res : DcResult} {hosts : List ℕ}
    (hr : Reach (Sys.act .mark) Sys.StillNegative (Sys.init bucketOf rootname) s₀)
    (hcall : s₀.act .mark (.call t (.op (.lookup path))) = some s₁)
    (htrail : Trail (Sys.act .mark) Sys.StillNegative s₁ vs s)
    (hbusy : ∀ v ∈ vs.tail, (v.pc t).busy = true) (hdone : s.pc t = .done (.lookup res hosts)) :
    ∃ v ∈ vs, Answers v.d path hosts res := by
  obtain ⟨S₀, hV, hN⟩ := NegRecorded.reach hr
  obtain ⟨d, ⟨v, hv, rfl⟩, hA⟩ :=
    (lookupCall_mark t path).returns ⟨hV, hN⟩ trivial hcall htrail hbusy hdone
  exact ⟨v, hv, hA⟩

/-- Thread 0 renames `/1` to `/3` while thread 2 looks `/1` up. -/
theorem lookup_right_at_instant_rename : ∃ s₀ s₁ s vs,
    Reach (Sys.act .mark) Sys.StillNegative (Sys.init (fun _ _ => 0) 0) s₀ ∧
      s₀.act .mark (.call 2 (.op (.lookup [1]))) = some s₁ ∧
      Trail (Sys.act .mark) Sys.StillNegative s₁ vs s ∧
      s.pc 2 = .done (.lookup .absent []) ∧ ∃ v ∈ vs, Answers v.d [1] [] .absent := by
  have he : ((exec (guarded (Sys.act .mark) Sys.StillNegative) (Sys.init (fun _ _ => 0) 0)
      (Act.op 1 (.addFile [1] 0) 6 ++ Act.op 0 (.rename [1] [3]) 11)).bind fun s₀ =>
        (s₀.act .mark (.call 2 (.op (.lookup [1])))).bind fun s₁ =>
          (trail (guarded (Sys.act .mark) Sys.StillNegative) [s₁] s₁
            (Act.steps 2 3 ++ Act.steps 0 2 ++ Act.steps 2 7)).map fun vs =>
              (vs.head?.map (·.pc 2), vs.tail.all fun v => (v.pc 2).busy)) =
      some (some (.done (.lookup .absent [])), true) := by
    rfl
  obtain ⟨s₀, s₁, s, vs, hr, hcall, htrail, hdone, hbusy⟩ := reach_call_trail he
  exact ⟨s₀, s₁, s, vs, hr, hcall, htrail, hdone,
    lookup_right_at_instant hr hcall htrail (all_eq_true.mp hbusy) hdone⟩

/-- Thread 0 renames `/1` to `/2` and has judged the negative `/2` replaceable when thread 1
instantiates `/2`. All names are in one chain, which `/4` heads. -/
def renameMeetsInstantiateInChain : List (Act ℕ) :=
  Act.op 1 (.addFile [1] 0) 6 ++ Act.op 1 (.addNegative [2]) 6 ++ Act.op 1 (.addFile [4] 0) 6 ++
    Act.op 0 (.rename [1] [2]) 12 ++ Act.op 1 (.instantiate [2] 7) 5

/-- A lookup of `/2` has gone to `/4`, the head, when the rename takes the positive `/2` out
behind it and puts its shell in before it: the answer is absent, and `/2` is positive in every
state of the call. -/
theorem lookup_misses_positive : ∃ s₀ s₁ s vs,
    Reach (Sys.act .mark) (fun _ _ => True) (Sys.init (fun _ _ => 0) 0) s₀ ∧
      s₀.act .mark (.call 2 (.op (.lookup [2]))) = some s₁ ∧
      Trail (Sys.act .mark) (fun _ _ => True) s₁ vs s ∧
      s.pc 2 = .done (.lookup .absent []) ∧ ∀ v ∈ vs, ¬ Answers v.d [2] [] .absent := by
  have he : ((exec (guarded (Sys.act .mark) fun _ _ => True) (Sys.init (fun _ _ => 0) 0)
      renameMeetsInstantiateInChain).bind fun s₀ =>
        (s₀.act .mark (.call 2 (.op (.lookup [2])))).bind fun s₁ =>
          (trail (guarded (Sys.act .mark) fun _ _ => True) [s₁] s₁
            (Act.steps 2 3 ++ Act.steps 0 3 ++ Act.steps 2 3)).map fun vs =>
              (vs.head?.map (·.pc 2), vs.all fun v => !decide (Answers v.d [2] [] .absent))) =
      some (some (.done (.lookup .absent [])), true) := by
    decide +kernel
  obtain ⟨s₀, s₁, s, vs, hr, hcall, htrail, hdone, hall⟩ := reach_call_trail he
  exact ⟨s₀, s₁, s, vs, hr, hcall, htrail, hdone, by simpa using hall⟩

end TrieBenchmark.Txn
