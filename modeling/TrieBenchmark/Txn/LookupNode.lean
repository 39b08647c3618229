import TrieBenchmark.Txn.LookupCall
import TrieBenchmark.Txn.NamedTop

/-!
Lookups of the per-node arm. The generation of a host is sampled when its name has been matched,
before its top is confirmed. A directory keeps its name as long as its generation stands and it
is in the index, and it is in the index as long as something is below it: in the state in which
the last top was confirmed, every component was bound.
-/

namespace TrieBenchmark.Txn

open List Edits Run

variable {Name : Type} {d d' v : Cache Name} {touched back : Option ℕ} {S : Set ℕ}
  {V : Set (Cache Name)} {C : Checked Name → Prop} {latched : List (ℕ × ℕ)} {names : List Name}
  {cur : ℕ} {q : ℕ × ℕ}

structure HopOk (d : Cache Name) (S : Set ℕ) (k : ℕ × Name) (q : ℕ × ℕ) : Prop where
  host : q.2 < d.fresh ∧ (d.dentry q.2).shell = false ∧ q.2 ≠ root
  le : q.1 ≤ d.seq q.2
  named : d.seq q.2 = q.1 → (d.dentry q.2).isdir = true → Bound d q.2 → Named d S q.2 k

theorem HopOk.effect {k : ℕ × Name} (hq : HopOk d S k q)
    (hE : Effect .node C d touched back d') (hI : IndexOk d) (hS : Settled d S)
    (hf : Spares touched back S) : HopOk d' (S ∪ {a | d'.linked a}) k q := by
  have hH := hE.indexStep hI
  obtain ⟨hlt, hs, hr⟩ := hq.host
  have hle : d.seq q.2 ≤ d'.seq q.2 := hE.stamp_le hI q.2
  have hkind := hH.kind q.2 hlt
  refine ⟨⟨Nat.lt_of_lt_of_le hlt hH.fresh, hkind.1.trans hs, hr⟩, Nat.le_trans hq.le hle, ?_⟩
  intro hseq hd hb
  rw [hkind.2.2] at hd
  have hb₀ : Bound d q.2 := (hE.bound_back hI hb).resolve_right (Nat.not_le.mpr hlt)
  have hseq₀ : d.seq q.2 = q.1 := Nat.le_antisymm (hseq ▸ hle) hq.le
  rcases (hq.named hseq₀ hd hb₀).effect hE hI hS hf hlt with hN | hmoved
  · exact hN
  · have hmore : d.seq q.2 < d'.seq q.2 := hmoved (by decide) hd
    omega

def HopsOk (d : Cache Name) (S : Set ℕ) : ℕ → List Name → List (ℕ × ℕ) → Prop
  | _, [], [] => True
  | cur, name :: names, q :: latched => HopOk d S (cur, name) q ∧ HopsOk d S q.2 names latched
  | _, _, _ => False

theorem HopsOk.effect
    (hW : HopsOk d S cur names latched) (hE : Effect .node C d touched back d') (hI : IndexOk d)
    (hS : Settled d S) (hf : Spares touched back S) :
    HopsOk d' (S ∪ {a | d'.linked a}) cur names latched := by
  induction names generalizing cur latched with
  | nil =>
    cases latched with
    | nil => trivial
    | cons => cases hW
  | cons _ _ ih =>
    cases latched with
    | nil => cases hW
    | cons => exact ⟨hW.1.effect hE hI hS hf, ih hW.2⟩

theorem HopsOk.append {name : Name} (hW : HopsOk d S cur names latched)
    (hq : HopOk d S (endHost cur latched, name) q) :
    HopsOk d S cur (names ++ [name]) (latched ++ [q]) := by
  induction names generalizing cur latched with
  | nil =>
    cases latched with
    | nil => exact ⟨hq, trivial⟩
    | cons => cases hW
  | cons _ _ ih =>
    cases latched with
    | nil => cases hW
    | cons _ latched =>
      refine ⟨hW.1, ih hW.2 ?_⟩
      cases latched <;> exact hq

theorem HopsOk.length (hW : HopsOk d S cur names latched) : names.length = latched.length := by
  induction names generalizing cur latched with
  | nil =>
    cases latched with
    | nil => rfl
    | cons => cases hW
  | cons _ _ ih =>
    cases latched with
    | nil => cases hW
    | cons => simpa using ih hW.2

variable [DecidableEq Name]

def Confirmed (v : Cache Name) (S : Set ℕ) : ℕ → List Name → List (ℕ × ℕ) → Prop
  | cur, [name], [q] => q.1 ≤ v.seq q.2 ∧ v.childLookup cur name = some q.2
  | cur, name :: names, q :: latched =>
    HopOk v S (cur, name) q ∧ Confirmed v S q.2 names latched
  | _, _, _ => False

theorem HopsOk.confirmed {name : Name} (hW : HopsOk d S cur names latched) (hle : q.1 ≤ d.seq q.2)
    (hb : d.childLookup (endHost cur latched) name = some q.2) :
    Confirmed d S cur (names ++ [name]) (latched ++ [q]) := by
  induction names generalizing cur latched with
  | nil =>
    cases latched with
    | nil => exact ⟨hle, hb⟩
    | cons => cases hW
  | cons _ names ih =>
    cases latched with
    | nil => cases hW
    | cons _ latched =>
      have hrest := ih hW.2 (by cases latched <;> exact hb)
      cases names with
      | nil =>
        cases latched with
        | nil => exact ⟨hW.1, hrest⟩
        | cons => cases hW.2
      | cons => exact ⟨hW.1, hrest⟩

theorem Confirmed.le (hC : Confirmed v S cur names latched) : ∀ q ∈ latched, q.1 ≤ v.seq q.2 := by
  induction names generalizing cur latched with
  | nil => cases latched <;> cases hC
  | cons _ names ih =>
    cases latched with
    | nil => cases names <;> cases hC
    | cons _ latched =>
      intro q hq
      cases names with
      | nil =>
        cases latched with
        | nil =>
          obtain rfl := mem_singleton.mp hq
          exact hC.1
        | cons => cases hC.2
      | cons =>
        rcases mem_cons.mp hq with rfl | hq
        · exact hC.1.le
        · exact ih hC.2 q hq

/-- Where no generation has moved, the names lead over the latched hosts: what has a child is
in the index, and so has the name it was met under. -/
theorem Confirmed.walked (hS : Shape v) (hD : DirsHeld v) (hC : Confirmed v S cur names latched)
    (hseq : ∀ q ∈ latched, v.seq q.2 = q.1) :
    Walked v cur names (latched.map Prod.snd) ∧ (v.dentry cur).isdir = true ∧
      (cur = root ∨ Bound v cur) := by
  have hparent : ∀ {cur h : ℕ} {name : Name}, v.childLookup cur name = some h →
      (v.dentry cur).isdir = true ∧ (cur = root ∨ Bound v cur) := by
    intro cur h name hb
    obtain ⟨T, hT, rfl, -⟩ := (childLookup_eq_some hS.index).mp hb
    exact hD.bound hS hT
  induction names generalizing cur latched with
  | nil => cases latched <;> cases hC
  | cons name names ih =>
    cases latched with
    | nil => cases names <;> cases hC
    | cons q latched =>
      cases names with
      | nil =>
        cases latched with
        | nil => exact ⟨⟨hC.2, trivial⟩, hparent hC.2⟩
        | cons => cases hC.2
      | cons =>
        obtain ⟨hq, hrest⟩ := hC
        obtain ⟨hW, hd, hb⟩ := ih hrest fun q' hq' => hseq q' (mem_cons_of_mem q hq')
        have hb := hb.resolve_left hq.host.2.2
        have hN := hq.named (hseq q mem_cons_self) hd hb
        have hl := (hS.index.bound_iff hq.host.1 hq.host.2.1).mp hb
        obtain ⟨hp, hn⟩ := Prod.ext_iff.mp hN.2
        have hfound : v.childLookup cur name = some q.2 :=
          (childLookup_eq_some hS.index).mpr
            ⟨_, hl, hp, hn, (hS.index.hostOf_namedTop hq.host.1 hq.host.2.1).1⟩
        exact ⟨⟨hfound, hW⟩, hparent hfound⟩

def Turned (V : Set (Cache Name)) (d : Cache Name) (names : List Name)
    (latched tested : List (ℕ × ℕ)) : Prop :=
  latched = [] ∨ ∃ v ∈ V, (Shape v ∧ DirsHeld v ∧ ∀ h, v.seq h ≤ d.seq h) ∧
    (∃ S, Confirmed v S root names latched) ∧ ∀ q ∈ tested, v.seq q.2 = q.1

theorem Turned.effect {latched tested : List (ℕ × ℕ)}
    (hT : Turned V d names latched tested) (hE : Effect .node C d touched back d')
    (hI : IndexOk d) : Turned (insert d' V) d' names latched tested := by
  refine hT.imp id fun ⟨v, hv, ⟨hS, hD, hle⟩, hC⟩ => ⟨v, .inr hv, ⟨hS, hD, fun h => ?_⟩, hC⟩
  exact Nat.le_trans (hle h) (hE.stamp_le hI h)

theorem Turned.test {latched tested : List (ℕ × ℕ)}
    (hT : Turned V d names latched tested) (hmem : q ∈ latched) (hq : d.seq q.2 = q.1) :
    Turned V d names latched (tested ++ [q]) := by
  refine hT.imp id fun ⟨v, hv, hS, ⟨S, hC⟩, htested⟩ => ⟨v, hv, hS, ⟨S, hC⟩, fun p hp => ?_⟩
  rcases mem_append.mp hp with hp | hp
  · exact htested p hp
  · obtain rfl := mem_singleton.mp hp
    exact Nat.le_antisymm (hq ▸ hS.2.2 p.2) (hC.le p hmem)

def Descent (V : Set (Cache Name)) (d : Cache Name) (S : Set ℕ) (path rest : List Name)
    (latched : List (ℕ × ℕ)) : Prop :=
  ∃ names, path = names ++ rest ∧ HopsOk d S root names latched ∧ Turned V d names latched []

theorem Descent.effect {path rest : List Name}
    (hW : Descent V d S path rest latched) (hE : Effect .node C d touched back d')
    (hI : IndexOk d) (hS : Settled d S) (hf : Spares touched back S) :
    Descent (insert d' V) d' (S ∪ {a | d'.linked a}) path rest latched := by
  obtain ⟨names, hpath, hW, hT⟩ := hW
  exact ⟨names, hpath, hW.effect hE hI hS hf, hT.effect hE hI⟩

theorem Descent.confirm {path rest : List Name} {name : Name}
    {top stamp : ℕ} (hW : Descent V d S path (name :: rest) latched) (hd : d ∈ V) (hS : Shape d)
    (hD : DirsHeld d) (hL : Latched d S top (endHost root latched) name) (ht : d.linked top)
    (hle : stamp ≤ d.seq (d.hostOf top)) :
    Descent V d S path rest (latched ++ [(stamp, d.hostOf top)]) := by
  obtain ⟨names, hpath, hW, -⟩ := hW
  have hI := hS.index
  obtain ⟨hlt, hr⟩ := hI.alloc top ht
  obtain ⟨hh, hs⟩ := hI.hostOf_host hlt
  have hb : d.childLookup (endHost root latched) name = some (d.hostOf top) :=
    (childLookup_eq_some hI).mpr ⟨top, ht, hL.2.1, hL.2.2, rfl⟩
  refine ⟨names ++ [name], by simp [hpath], hW.append ⟨⟨hh, hs, hI.hostOf_ne_root hlt hr⟩, hle, ?_⟩,
    .inr ⟨d, hd, ⟨hS, hD, fun _ => Nat.le_refl _⟩, ⟨S, hW.confirmed hle hb⟩, ?_⟩⟩
  · intro _ _ _
    unfold Named
    rw [hI.namedTop_of_linked ht]
    exact ⟨hL.1, Prod.ext hL.2.1 hL.2.2⟩
  · intro q hq
    cases hq

def NodeLookupOk (path : List Name) (V : Set (Cache Name)) (d : Cache Name) (S : Set ℕ) :
    Pc Name → Prop
  | .lkHop p _ cur rest latched _ => p = path ∧ cur = endHost root latched ∧
      Descent V d S path rest latched
  | .lkScan h _ => h.path = path ∧ h.cur = endHost root h.latched ∧
      Descent V d S path (h.name :: h.rest) h.latched
  | .lkName h _ _ => h.path = path ∧ h.cur = endHost root h.latched ∧
      Descent V d S path (h.name :: h.rest) h.latched
  | .lkNext h _ => h.path = path ∧ h.cur = endHost root h.latched ∧
      Descent V d S path (h.name :: h.rest) h.latched
  | .lkStamp h _ _ => h.path = path ∧ h.cur = endHost root h.latched ∧
      Descent V d S path (h.name :: h.rest) h.latched
  | .lkConfirm h top _ stamp => h.path = path ∧ h.cur = endHost root h.latched ∧
      Descent V d S path (h.name :: h.rest) h.latched ∧ stamp ≤ d.seq (d.hostOf top)
  | .lkState h top _ stamp => h.path = path ∧
      Descent V d S path h.rest (h.latched ++ [(stamp, d.hostOf top)])
  | .lkUp p latched todo res => p = path ∧ ∃ names rest tested, path = names ++ rest ∧
      names.length = latched.length ∧ (res ≠ .absent → rest = []) ∧ latched = tested ++ todo ∧
      Turned V d names latched tested
  | _ => False

variable {path : List Name} {pc : Pc Name}

theorem NodeLookupOk.effect (hL : NodeLookupOk path V d S pc)
    (hE : Effect .node C d touched back d') (hI : IndexOk d) (hS : Settled d S)
    (hf : Spares touched back S) (hP : PcOk .node d S pc) :
    NodeLookupOk path (insert d' V) d' (S ∪ {a | d'.linked a}) pc := by
  have hhost : ∀ {a : ℕ}, a ∈ S → d'.hostOf a = d.hostOf a := fun ha =>
    (hE.indexStep hI).kind.hostOf (hS _ ha).1
  cases pc with
  | lkHop | lkScan | lkName | lkNext | lkStamp => exact ⟨hL.1, hL.2.1, hL.2.2.effect hE hI hS hf⟩
  | lkConfirm =>
    obtain ⟨hp, hcur, hW, hle⟩ := hL
    refine ⟨hp, hcur, hW.effect hE hI hS hf, ?_⟩
    rw [hhost hP.1]
    exact Nat.le_trans hle (hE.stamp_le hI _)
  | lkState =>
    refine ⟨hL.1, ?_⟩
    rw [hhost hP.1]
    exact hL.2.effect hE hI hS hf
  | lkUp =>
    obtain ⟨hp, names, rest, tested, hpath, hlen, hres, hl, hT⟩ := hL
    exact ⟨hp, names, rest, tested, hpath, hlen, hres, hl, hT.effect hE hI⟩
  | _ => cases hL

theorem NodeLookupOk.start (path : List Name) : NodeLookupOk path V d S (.lkStart .node path) :=
  ⟨rfl, rfl, [], rfl, trivial, .inl rfl⟩

def WasBound (V : Set (Cache Name)) (path : List Name) (hosts : List ℕ) (res : DcResult) : Prop :=
  (res ≠ .absent → hosts.length = path.length) ∧
    ∃ v ∈ V, Walked v root (path.take hosts.length) hosts

theorem NodeLookupOk.stepPc {ans : Answer} (hd : d ∈ V) (hS : Shape d) (hD : DirsHeld d)
    (hP : PcOk .node d S pc) (hset : Settled d S) (hL : NodeLookupOk path V d S pc) :
    NodeLookupOk path V d S (stepPc .node d pc ans).2 ∨ ∃ res hosts,
      (Txn.stepPc .node d pc ans).2 = .done (.lookup res hosts) ∧ WasBound V path hosts res := by
  cases pc with
  | lkHop _ _ _ rest =>
    obtain ⟨rfl, hcur, hW⟩ := hL
    cases rest with
    | nil =>
      obtain ⟨names, hpath, hW, hT⟩ := hW
      exact .inl ⟨rfl, names, [], [], hpath, hW.length, fun _ => rfl, rfl, hT⟩
    | cons => exact .inl ⟨rfl, hcur, hW⟩
  | lkScan _ node =>
    obtain ⟨hp, hcur, hW⟩ := hL
    cases node with
    | none =>
      obtain ⟨names, hpath, hW, hT⟩ := hW
      exact .inl ⟨hp, names, _, [], hpath, hW.length, fun hr => absurd rfl hr, rfl, hT⟩
    | some =>
      simp only [Txn.stepPc]
      split_ifs
      · exact .inl ⟨hp, hcur, hW⟩
      · exact .inl ⟨hp, hcur, hW⟩
  | lkName =>
    simp only [Txn.stepPc]
    split_ifs
    · exact .inl hL
    · exact .inl hL
  | lkNext => exact .inl hL
  | lkStamp => exact .inl ⟨hL.1, hL.2.1, hL.2.2, Nat.le_refl _⟩
  | lkConfirm _ top =>
    obtain ⟨hp, hcur, hW, hle⟩ := hL
    simp only [Txn.stepPc]
    split_ifs with hm
    · rw [hp]
      exact .inl (.start path)
    · obtain ⟨hlt, hr⟩ := hset top hP.1
      have ht := (hS.index.live top hlt hr).mp (by simpa using hm)
      exact .inl ⟨hp, hW.confirm hd hS hD (hcur ▸ hP) ht hle⟩
  | lkState =>
    refine .inl ⟨hL.1, ?_, hL.2⟩
    simp [endHost]
  | lkUp p latched todo res =>
    obtain ⟨rfl, names, rest, tested, hpath, hlen, hres, hl, hT⟩ := hL
    cases todo with
    | nil =>
      rw [append_nil] at hl
      subst hl
      have htake : p.take (latched.map Prod.snd).length = names := by
        rw [length_map, ← hlen, hpath, take_left']
        rfl
      refine .inr ⟨res, _, rfl, fun hr => ?_, ?_⟩
      · simp [hpath, hres hr, hlen]
      · rw [htake]
        rcases hT with rfl | ⟨v, hv, ⟨hSv, hDv, -⟩, ⟨_, hC⟩, htested⟩
        · obtain rfl := length_eq_zero_iff.mp hlen
          exact ⟨d, hd, trivial⟩
        · exact ⟨v, hv, (hC.walked hSv hDv htested).1⟩
    | cons q =>
      simp only [Txn.stepPc]
      split_ifs with hm
      · exact .inl (.start p)
      · rw [Cache.restamped_node, decide_eq_true_eq, not_not] at hm
        refine .inl ⟨rfl, names, rest, tested ++ [q], hpath, hlen, hres, by simp [hl], ?_⟩
        exact hT.test (by simp [hl]) hm
  | _ => cases hL

theorem NodeLookupOk.live (hL : NodeLookupOk path V d S pc) :
    pc.busy = true ∧ pc.reads = true := by
  cases pc <;> first | exact ⟨rfl, rfl⟩ | cases hL

variable {s : Sys Name} {vs : List (Sys Name)} {t : ℕ}

theorem lookupCall_node (t : ℕ) (path : List Name) : LookupCall .node Sys.IntoDir t path
    (Tended .node) (NodeLookupOk path) (fun V hosts res => WasBound V path hosts res) := by
  constructor
  case inv => exact fun hO => hO.inv
  case act => exact fun hO hok ha => hO.act hok ha
  case start => exact fun _ _ => .start path
  case live => exact fun hL => hL.live
  case effect =>
    intro s S a s' V hO hok ha hb _ hL
    obtain ⟨touched, back, hE, hf, -⟩ := hO.inv.effect_of_act (C := InDirs s.d) ha
      fun _ _ _ _ hc => hO.commits hc
    have hM := (hO.inv.seen t hb).toMeets
    exact hL.effect hE hO.inv.index hM.settled (hf t hb) (hO.inv.pcOk t)
  case step =>
    intro s S V ans hO hb hd hL
    exact hL.stepPc hd hO.shape hO.dirs (hO.inv.pcOk t) (hO.inv.seen t hb).toMeets.settled

/-- The components that a lookup of the per-node arm went through were all bound, one under the
other, to the hosts it used, at one instant of its call. -/
theorem node_lookup_bound_at_instant {bucketOf : ℕ → Name → ℕ} {rootname : Name}
    {s₀ s₁ : Sys Name} {res : DcResult} {hosts : List ℕ}
    (hr : Reach (Sys.act .node) Sys.IntoDir (Sys.init bucketOf rootname) s₀)
    (hcall : s₀.act .node (.call t (.op (.lookup path))) = some s₁)
    (htrail : Trail (Sys.act .node) Sys.IntoDir s₁ vs s)
    (hbusy : ∀ v ∈ vs.tail, (v.pc t).busy = true) (hdone : s.pc t = .done (.lookup res hosts)) :
    (res ≠ .absent → hosts.length = path.length) ∧
      ∃ v ∈ vs, Walked v.d root (path.take hosts.length) hosts := by
  obtain ⟨S₀, hO⟩ : ∃ S, Tended .node s₀ S :=
    hr.invariant (P := fun s => ∃ S, Tended .node s S) ⟨_, .init .node bucketOf rootname⟩
      fun _ _ _ ⟨_, hO⟩ hok ha => ⟨_, hO.act hok ha⟩
  obtain ⟨hlen, d, ⟨v, hv, rfl⟩, hW⟩ :=
    (lookupCall_node t path).returns hO trivial hcall htrail hbusy hdone
  exact ⟨hlen, v, hv, hW⟩

/-- The file `/1/2` moves to `/3` once the walk has tested the last of its sequences again. The
answer is for `/1/2`, which was bound in the state before. -/
theorem node_lookup_bound_at_instant_rename : ∃ s₀ s₁ s vs,
    Reach (Sys.act .node) Sys.IntoDir (Sys.init (fun _ _ => 0) 0) s₀ ∧
      s₀.act .node (.call 2 (.op (.lookup [1, 2]))) = some s₁ ∧
      Trail (Sys.act .node) Sys.IntoDir s₁ vs s ∧
      s.pc 2 = .done (.lookup .positive [1, 2]) ∧
      ∃ v ∈ vs, Walked v.d root [1, 2] [1, 2] := by
  have he : ((exec (guarded (Sys.act .node) Sys.IntoDir) (Sys.init (fun _ _ => 0) 0)
      (Act.op 1 (.add [1] 0) 6 ++ Act.op 1 (.addFile [1, 2] 0) 7)).bind fun s₀ =>
        (s₀.act .node (.call 2 (.op (.lookup [1, 2])))).bind fun s₁ =>
          (trail (guarded (Sys.act .node) Sys.IntoDir) [s₁] s₁
            (Act.steps 2 17 ++ Act.op 0 (.rename [1, 2] [3]) 18 ++ Act.steps 2 1)).map fun vs =>
              (vs.head?.map (·.pc 2), vs.tail.all fun v => (v.pc 2).busy)) =
      some (some (.done (.lookup .positive [1, 2])), true) := by
    decide +kernel
  obtain ⟨s₀, s₁, s, vs, hr, hcall, htrail, hdone, hbusy⟩ := reach_call_trail he
  exact ⟨s₀, s₁, s, vs, hr, hcall, htrail, hdone,
    (node_lookup_bound_at_instant hr hcall htrail (all_eq_true.mp hbusy) hdone).2⟩

end TrieBenchmark.Txn
