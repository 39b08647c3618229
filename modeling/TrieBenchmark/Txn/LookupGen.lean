import TrieBenchmark.Txn.Directory
import TrieBenchmark.Txn.LookupCall

/-!
Lookups of the global arm. The walk tests nothing but the generation at its end. If that has not
moved, no directory has moved since the walk began, and every host on its way was bound in a
state of the call, with nothing below it if it has been given up since.
-/

namespace TrieBenchmark.Txn

open List Edits Run

variable {Name : Type} {d d' v : Cache Name} {touched back : Option ℕ} {S G : Set ℕ}
  {V V' : Set (Cache Name)} {C : Checked Name → Prop}

variable [DecidableEq Name] {names : List Name} {hosts : List ℕ}

theorem Walked.append {cur h : ℕ} {name : Name}
    (hW : Walked d cur names hosts) (hb : d.childLookup (hosts.getLastD cur) name = some h) :
    Walked d cur (names ++ [name]) (hosts ++ [h]) := by
  induction names generalizing cur hosts with
  | nil =>
    cases hosts with
    | nil => exact ⟨hb, trivial⟩
    | cons => cases hW
  | cons _ _ ih =>
    cases hosts with
    | nil => cases hW
    | cons _ hosts =>
      refine ⟨hW.1, ih hW.2 ?_⟩
      cases hosts <;> exact hb

def Stands (V : Set (Cache Name)) (d : Cache Name) (names : List Name) (hosts : List ℕ) (T : ℕ) :
    Prop :=
  Walked d root names hosts ∨
    (Barren d (d.hostOf T) ∧ ¬ d.linked T ∧ ¬ d.linked (d.hostOf T)) ∧
      ∃ v ∈ V, Walked v root names hosts ∧ (∀ name, v.childLookup (d.hostOf T) name = none) ∧
        (v.raw (d.hostOf T)).neg = (d.raw (d.hostOf T)).neg

theorem Stands.state {T : ℕ} (hd : d ∈ V) (hT : Stands V d names hosts T) :
    ∃ v ∈ V, Walked v root names hosts ∧ (v.raw (d.hostOf T)).neg = (d.raw (d.hostOf T)).neg := by
  rcases hT with hW | ⟨-, v, hv, hW, -, hneg⟩
  · exact ⟨d, hd, hW, rfl⟩
  · exact ⟨v, hv, hW, hneg⟩

structure Sound (C : Checked Name → Prop) (d : Cache Name) : Prop extends Shape d where
  flip : ∀ h, C (.flip h) → d.mark h = false
  neg : ∀ m neg, C (.rename m neg) → ∀ a, neg = some a → (d.dentry a).neg = true

theorem Stands.effect (hE : Effect .global C d touched back d') (hd : Sound C d)
    (hgen : d'.gen = d.gen) (hM : Meets d S) (hf : Spares touched back S)
    (hback : ∀ T ∈ S, ¬ d.linked T → back ≠ some (d.hostOf T)) (hdV : d ∈ V) {T : ℕ} (hTS : T ∈ S)
    (hlast : hosts.getLast? = some (d.hostOf T)) (hT : Stands V d names hosts T) :
    Stands (insert d' V) d' names hosts T := by
  have hI := hd.index
  have hH := hE.indexStep hI
  have hlt := (hM.settled T hTS).1
  have hhost := hI.hostOf_host hlt
  have hsame : d'.hostOf T = d.hostOf T := hH.kind.hostOf hlt
  unfold Stands
  rw [hsame]
  rcases hT with hW | ⟨⟨hb, hnl, hnh⟩, v, hv, hW, hnone, hneg⟩
  · refine (hW.effect hE hI hd.kids hgen hlast).imp id fun hL => ?_
    exact ⟨⟨hL.barren, hL.tops T hlt rfl, hL.tops _ hhost.1 (hI.hostOf_hostOf hlt)⟩, d, .inr hdV,
      hW, childLookup_of_kids_nil hI hL.kids, hL.neg.symm⟩
  · refine .inr ⟨⟨hb.effect hE hI hhost.1, ?_, ?_⟩, v, .inr hv, hW, hnone, hneg.trans ?_⟩
    · exact (hH.dead (hE.indexOk hI) hlt (hM.settled T hTS).2 (hf.back T hTS) hnl).1
    · exact (hH.dead (hE.indexOk hI) hhost.1 (hI.hostOf_ne_root hlt (hM.settled T hTS).2)
        (hback T hTS hnl) hnh).1
    · -- only an entry whose host is in the index is flipped
      rcases hE.neg_cases hI hhost.1 with he | ⟨_, hc, -⟩
      · exact he.symm
      · have hm := hd.flip _ hc
        exact absurd ((hI.live _ hhost.1 (hI.hostOf_ne_root hlt (hM.settled T hTS).2)).mp hm) hnh

structure Trip (V : Set (Cache Name)) (d : Cache Name) (S : Set ℕ) (path : List Name)
    (gen cur : ℕ) (rest : List Name) (latched : List (ℕ × ℕ)) : Prop where
  le : gen ≤ d.gen
  len : latched.length ≤ path.length
  rest : rest = path.drop latched.length
  cur : cur = endHost root latched
  stood : d.gen = gen → latched = [] ∨ ∃ T ∈ S, latched.getLast? = some (T, d.hostOf T) ∧
    Stands V d (path.take latched.length) (latched.map Prod.snd) T

namespace Trip

variable {path rest : List Name} {gen cur : ℕ} {latched : List (ℕ × ℕ)}

theorem start (path : List Name) : Trip V d S path d.gen root path [] :=
  ⟨Nat.le_refl _, Nat.zero_le _, rfl, rfl, fun _ => .inl rfl⟩

theorem walked (hT : Trip V d S path gen cur rest latched) (hd : Shape d) (hM : Meets d S)
    (hgen : d.gen = gen) (hk : d.kids cur ≠ []) :
    Walked d root (path.take latched.length) (latched.map Prod.snd) := by
  rcases hT.stood hgen with rfl | ⟨T, hTS, hlast, hW | ⟨⟨hb, -⟩, -⟩⟩
  · trivial
  · exact hW
  · have hcur : cur = d.hostOf T := by
      rw [hT.cur, endHost, getLastD_eq_getLast?, getLast?_map, hlast]
      rfl
    rw [hcur] at hk
    exact absurd (hb.kids hd.kids hd.heads (hd.index.hostOf_host (hM.settled T hTS).1).1) hk

theorem missing {name : Name} (hT : Trip V d S path gen cur rest latched) (hdV : d ∈ V)
    (hgen : d.gen = gen) (hm : Missing d cur name) :
    ∃ v ∈ V, Walked v root (path.take latched.length) (latched.map Prod.snd) ∧
      Missing v cur name := by
  rcases hT.stood hgen with rfl | ⟨T, hTS, hlast, hW | ⟨-, v, hv, hW, hnone, -⟩⟩
  · exact ⟨d, hdV, trivial, hm⟩
  · exact ⟨d, hdV, hW, hm⟩
  · have hcur : cur = d.hostOf T := by
      rw [hT.cur, endHost, getLastD_eq_getLast?, getLast?_map, hlast]
      rfl
    refine ⟨v, hv, hW, fun host hh => ?_⟩
    rw [hcur, hnone name] at hh
    cases hh

theorem effect (hT : Trip V d S path gen cur rest latched)
    (hE : Effect .global C d touched back d') (hd : Sound C d) (hM : Meets d S)
    (hf : Spares touched back S)
    (hback : ∀ T ∈ S, ¬ d.linked T → back ≠ some (d.hostOf T)) (hdV : d ∈ V) :
    Trip (insert d' V) d' (S ∪ {a | d'.linked a}) path gen cur rest latched := by
  have hle := hE.gen_le hd.index
  refine ⟨Nat.le_trans hT.le hle, hT.len, hT.rest, hT.cur, fun hgen => ?_⟩
  have hgen₀ : d.gen = gen := Nat.le_antisymm (hgen ▸ hle) hT.le
  refine (hT.stood hgen₀).imp id fun ⟨T, hTS, hlast, hst⟩ => ?_
  have hsame : d'.hostOf T = d.hostOf T := (hE.indexStep hd.index).kind.hostOf (hM.settled T hTS).1
  refine ⟨T, .inl hTS, by rw [hsame]; exact hlast, ?_⟩
  exact hst.effect hE hd (hgen.trans hgen₀.symm) hM hf hback hdV hTS (by simp [hlast])

theorem extend {name : Name} (hT : Trip V d S path gen cur (name :: rest) latched) (hd : Shape d)
    (hM : Meets d S) (hgen : d.gen = gen) {T : ℕ} (hl : d.linked T)
    (hp : (d.dentry T).iparent = cur) (hn : (d.dentry T).iname = name) :
    Walked d root (path.take (latched.length + 1)) (latched.map Prod.snd ++ [d.hostOf T]) := by
  have hmem := (hd.index.kids cur T).mpr ⟨hl, hp⟩
  have hW := hT.walked hd hM hgen (ne_nil_of_mem hmem)
  have hnext : path[latched.length]? = some name := by
    rw [← head?_drop, ← hT.rest]
    rfl
  rw [take_add_one, hnext]
  refine hW.append ((childLookup_eq_some hd.index).mpr ⟨T, hl, hp.trans ?_, hn, rfl⟩)
  exact hT.cur

end Trip

structure Scan (V : Set (Cache Name)) (d : Cache Name) (S : Set ℕ) (path : List Name)
    (h : Hop Name) (G : Set ℕ) : Prop where
  trip : Trip V d S path h.gen h.cur (h.name :: h.rest) h.latched
  sub : G ⊆ S
  meets : Meets d G
  cand : d.gen = h.gen → ∀ T ∈ G, (d.dentry T).iparent = h.cur → (d.dentry T).iname = h.name →
    Stands V d (path.take (h.latched.length + 1)) (h.latched.map Prod.snd ++ [d.hostOf T]) T

def Seeks (V : Set (Cache Name)) (d : Cache Name) (path : List Name) (h : Hop Name) (G : Set ℕ)
    (node : Option ℕ) : Prop :=
  d.gen = h.gen → (∃ v ∈ V, Walked v root (path.take h.latched.length) (h.latched.map Prod.snd) ∧
    Missing v h.cur h.name) ∨ ∃ n, node = some n ∧ OnTrack d G h.cur h.name n

def WordRead (V : Set (Cache Name)) (d : Cache Name) (path : List Name) (h : Hop Name) (n : ℕ)
    (raw : StateWord) : Prop :=
  d.gen = h.gen → (d.dentry n).iname = h.name → raw.shell = false → ∃ v ∈ V,
    Walked v root (path.take (h.latched.length + 1)) (h.latched.map Prod.snd ++ [d.hostOf n]) ∧
      (v.raw (d.hostOf n)).neg = raw.neg

theorem Spares.mono {touched back : Option ℕ} (hf : Spares touched back S) (hG : G ⊆ S) :
    Spares touched back G :=
  ⟨fun a ha => hf.key a (hG ha), fun a ha => hf.back a (hG ha)⟩

variable {path : List Name} {h : Hop Name} {node : Option ℕ} {n : ℕ} {raw : StateWord}

theorem Scan.start (hT : Trip V d S path h.gen h.cur (h.name :: h.rest) h.latched)
    (hd : Shape d) (hM : Meets d S) : Scan V d S path h {a | d.linked a} :=
  ⟨hT, fun a ha => hM.cover a ha, ⟨fun a ha => hd.index.alloc a ha, fun _ ha => ha,
    fun _ ha _ hb => hd.index.next_linked ha hb⟩,
    fun hgen _ hl hp hn => .inl (hT.extend hd hM hgen hl hp hn)⟩

section Effects

variable (hE : Effect .global C d touched back d') (hd : Sound C d) (hd' : Shape d')
  (hM : Meets d S) (hB : SameBucket d S) (hf : Spares touched back S)
  (hback : ∀ T ∈ S, ¬ d.linked T → back ≠ some (d.hostOf T)) (hdV : d ∈ V)

include hE hd hd' hM hf hback hdV

theorem Scan.effect (hS : Scan V d S path h G) :
    Scan (insert d' V) d' (S ∪ {a | d'.linked a}) path h (G ∪ {a | d'.linked a}) := by
  have hH := hE.indexStep hd.index
  have hM' := hM.step hd'.index hH hf
  have hT' := hS.trip.effect hE hd hM hf hback hdV
  refine ⟨hT', fun a ha => ha.imp (fun h => hS.sub h) id,
    hS.meets.step hd'.index hH (hf.mono hS.sub), fun hgen T hTG hp hn => ?_⟩
  by_cases hl : d'.linked T
  · exact .inl (hT'.extend hd' hM' hgen hl hp hn)
  · have hTG' : T ∈ G := hTG.resolve_right hl
    have hTS := hS.sub hTG'
    have hlt := (hM.settled T hTS).1
    obtain ⟨hp', hn'⟩ := hH.key T hlt (hf.key T hTS)
    have hgen₀ : d.gen = h.gen := Nat.le_antisymm (hgen ▸ hE.gen_le hd.index) hS.trip.le
    rw [hH.kind.hostOf hlt]
    exact (hS.cand hgen₀ T hTG' (hp'.symm.trans hp) (hn'.symm.trans hn)).effect hE hd
      (hgen.trans hgen₀.symm) hM hf hback hdV hTS (by simp)

omit hd' in
include hB in
theorem Seeks.effect (hS : Scan V d S path h G) (hK : Seeks V d path h G node) :
    Seeks (insert d' V) d' path h (G ∪ {a | d'.linked a}) node := by
  intro hgen
  have hgen₀ : d.gen = h.gen := Nat.le_antisymm (hgen ▸ hE.gen_le hd.index) hS.trip.le
  have hold : (∃ v ∈ V, Walked v root (path.take h.latched.length) (h.latched.map Prod.snd) ∧
      Missing v h.cur h.name) → ∃ v ∈ insert d' V,
      Walked v root (path.take h.latched.length) (h.latched.map Prod.snd) ∧
        Missing v h.cur h.name := fun ⟨v, hv, hq⟩ => ⟨v, .inr hv, hq⟩
  rcases hK hgen₀ with hq | ⟨n, rfl, hT⟩
  · exact .inl (hold hq)
  · by_cases hm : Missing d h.cur h.name
    · exact .inl (hold (hS.trip.missing hdV hgen₀ hm))
    · by_cases hm' : Missing d' h.cur h.name
      · exact .inl ((hS.trip.effect hE hd hM hf hback hdV).missing (.inl rfl) hgen hm')
      · exact .inr ⟨n, rfl, hT.effect hE hd.neg hd.index hS.meets (fun a ha => hB a (hS.sub ha))
          (hf.mono hS.sub) hm hm'⟩

omit hd' hback hdV in
theorem WordRead.effect (hS : Scan V d S path h G) (hn : n ∈ G) (hR : WordRead V d path h n raw) :
    WordRead (insert d' V) d' path h n raw := by
  intro hgen hname hs
  have hH := hE.indexStep hd.index
  have hgen₀ : d.gen = h.gen := Nat.le_antisymm (hgen ▸ hE.gen_le hd.index) hS.trip.le
  have hlt := (hM.settled n (hS.sub hn)).1
  rw [hH.kind.hostOf hlt]
  obtain ⟨v, hv, hq⟩ := hR hgen₀ ((hH.key n hlt (hf.key n (hS.sub hn))).2.symm.trans hname) hs
  exact ⟨v, .inr hv, hq⟩

end Effects

def GenLookupOk (path : List Name) (V : Set (Cache Name)) (d : Cache Name) (S : Set ℕ) :
    Pc Name → Prop
  | .lkGen p => p = path
  | .lkHop p gen cur rest latched res => p = path ∧ Trip V d S path gen cur rest latched ∧
      (d.gen = gen → ∃ v ∈ V, Walked v root (path.take latched.length) (latched.map Prod.snd) ∧
        StateAt v latched res)
  | .lkScan h node => h.path = path ∧ ∃ G, Scan V d S path h G ∧ Seeks V d path h G node ∧
      ∀ n, node = some n → n ∈ G
  | .lkName h n raw => h.path = path ∧ ∃ G, Scan V d S path h G ∧ Seeks V d path h G (some n) ∧
      n ∈ G ∧ WordRead V d path h n raw
  | .lkNext h n => h.path = path ∧ ∃ G, Scan V d S path h G ∧ Seeks V d path h G (some n) ∧
      n ∈ G ∧ ¬ ((d.dentry n).iparent = h.cur ∧ (d.dentry n).iname = h.name)
  | .lkState h top raw stamp => h.path = path ∧ stamp = top ∧ ∃ G, Scan V d S path h G ∧ top ∈ G ∧
      WordRead V d path h top raw
  | .lkGenEnd p gen latched res => p = path ∧ gen ≤ d.gen ∧
      (d.gen = gen → ∃ v ∈ V, Answers v path (latched.map Prod.snd) res)
  | _ => False

variable {pc : Pc Name}

theorem GenLookupOk.effect (hE : Effect .global C d touched back d') (hd : Sound C d)
    (hd' : Shape d') (hM : Meets d S) (hB : SameBucket d S) (hf : Spares touched back S)
    (hback : ∀ T ∈ S, ¬ d.linked T → back ≠ some (d.hostOf T)) (hdV : d ∈ V)
    (hL : GenLookupOk path V d S pc) :
    GenLookupOk path (insert d' V) d' (S ∪ {a | d'.linked a}) pc := by
  have hH := hE.indexStep hd.index
  have hle := hE.gen_le hd.index
  cases pc with
  | lkGen => exact hL
  | lkHop =>
    obtain ⟨hp, hT, hq⟩ := hL
    refine ⟨hp, hT.effect hE hd hM hf hback hdV, fun hgen => ?_⟩
    obtain ⟨v, hv, hq⟩ := hq (Nat.le_antisymm (hgen ▸ hle) hT.le)
    exact ⟨v, .inr hv, hq⟩
  | lkScan =>
    obtain ⟨hp, G, hS, hK, hn⟩ := hL
    exact ⟨hp, _, hS.effect hE hd hd' hM hf hback hdV,
      hK.effect hE hd hM hB hf hback hdV hS, fun n he => .inl (hn n he)⟩
  | lkName =>
    obtain ⟨hp, G, hS, hK, hn, hR⟩ := hL
    exact ⟨hp, _, hS.effect hE hd hd' hM hf hback hdV,
      hK.effect hE hd hM hB hf hback hdV hS, .inl hn,
      hR.effect hE hd hM hf hS hn⟩
  | lkNext _ n =>
    obtain ⟨hp, G, hS, hK, hn, hno⟩ := hL
    refine ⟨hp, _, hS.effect hE hd hd' hM hf hback hdV,
      hK.effect hE hd hM hB hf hback hdV hS, .inl hn, ?_⟩
    obtain ⟨hk, hk'⟩ := hH.key n (hM.settled n (hS.sub hn)).1 (hf.key n (hS.sub hn))
    rwa [hk, hk']
  | lkState =>
    obtain ⟨hp, hst, G, hS, hn, hR⟩ := hL
    exact ⟨hp, hst, _, hS.effect hE hd hd' hM hf hback hdV, .inl hn,
      hR.effect hE hd hM hf hS hn⟩
  | lkGenEnd =>
    obtain ⟨hp, hg, hq⟩ := hL
    refine ⟨hp, Nat.le_trans hg hle, fun hgen => ?_⟩
    obtain ⟨v, hv, hq⟩ := hq (Nat.le_antisymm (hgen ▸ hle) hg)
    exact ⟨v, .inr hv, hq⟩
  | _ => cases hL

theorem Scan.latch (hS : Scan V d S path h G) {top : ℕ} (hL : Latched d S top h.cur h.name)
    (hG : top ∈ G) : Trip V d S path h.gen (d.hostOf top) h.rest
      (h.latched ++ [(top, d.hostOf top)]) := by
  have hT := hS.trip
  have hlt : h.latched.length < path.length := by
    by_contra hge
    have hnil := hT.rest
    rw [drop_eq_nil_of_le (Nat.not_lt.mp hge)] at hnil
    cases hnil
  refine ⟨hT.le, by simpa using Nat.succ_le_of_lt hlt, ?_, by simp [endHost], fun hgen => .inr ?_⟩
  · rw [length_append, length_singleton, ← drop_drop, ← hT.rest]
    rfl
  · refine ⟨top, hL.1, by simp, ?_⟩
    simpa using hS.cand hgen top hG hL.2.1 hL.2.2

theorem Scan.state (hS : Scan V d S path h G) (hdV : d ∈ V) {top : ℕ}
    (hL : Latched d S top h.cur h.name) (hG : top ∈ G) (hR : WordRead V d path h top raw)
    (hgen : d.gen = h.gen) :
    ∃ v ∈ V, Walked v root (path.take (h.latched ++ [(top, d.hostOf top)]).length)
      ((h.latched ++ [(top, d.hostOf top)]).map Prod.snd) ∧
      StateAt v (h.latched ++ [(top, d.hostOf top)])
        (if (if raw.shell then (d.raw (d.hostOf top)).neg else raw.neg) then .negative
          else .positive) := by
  have hword : ∃ v ∈ V, Walked v root (path.take (h.latched.length + 1))
      (h.latched.map Prod.snd ++ [d.hostOf top]) ∧ (v.raw (d.hostOf top)).neg =
        if raw.shell then (d.raw (d.hostOf top)).neg else raw.neg := by
    cases hs : raw.shell with
    | true => exact (hS.cand hgen top hG hL.2.1 hL.2.2).state hdV
    | false => exact hR hgen hL.2.2 hs
  obtain ⟨v, hv, hW, hneg⟩ := hword
  refine ⟨v, hv, by simpa using hW, ?_⟩
  simp [StateAt, hneg]

theorem GenLookupOk.stepPc {ans : Answer} (hdV : d ∈ V) (hd : Shape d) (hM : Meets d S)
    (hB : SameBucket d S) (hP : PcOk .global d S pc) (hL : GenLookupOk path V d S pc) :
    GenLookupOk path V d S (stepPc .global d pc ans).2 ∨ ∃ res hosts,
      (Txn.stepPc .global d pc ans).2 = .done (.lookup res hosts) ∧
        ∃ v ∈ V, Answers v path hosts res := by
  cases pc with
  | lkGen p =>
    obtain rfl : p = path := hL
    exact .inl ⟨rfl, .start p, fun _ => ⟨d, hdV, trivial, rfl⟩⟩
  | lkHop p gen cur rest latched =>
    obtain ⟨rfl, hT, hq⟩ := hL
    cases rest with
    | nil =>
      refine .inl ⟨rfl, hT.le, fun hgen => ?_⟩
      obtain ⟨v, hv, hW, hst⟩ := hq hgen
      rw [take_of_length_le (drop_eq_nil_iff.mp hT.rest.symm)] at hW
      exact ⟨v, hv, hW.answers hst⟩
    | cons name rest =>
      have hS := Scan.start (h := ⟨p, gen, cur, name, rest, latched⟩) hT hd hM
      refine .inl ⟨rfl, _, hS, fun hgen => ?_, fun n hn => ?_⟩
      · by_cases hm : Missing d cur name
        · exact .inl (hT.missing hdV hgen hm)
        · obtain ⟨z, hz, hp, hn, -⟩ := not_missing hd.index hm
          exact .inr (OnTrack.head hd.index hS.meets hz hp hn)
      · exact hd.index.linked_of_mem (mem_of_mem_head? hn)
  | lkScan h node =>
    obtain ⟨hp, G, hS, hK, hn⟩ := hL
    cases node with
    | none =>
      refine .inl ⟨hp, hS.trip.le, fun hgen => ?_⟩
      rcases hK hgen with ⟨v, hv, hW, hm⟩ | ⟨n, he, -⟩
      · refine ⟨v, hv, by simpa using hW, h.name, ?_, ?_⟩
        · rw [length_map, ← head?_drop, ← hS.trip.rest]
          rfl
        · rw [hS.trip.cur] at hm
          exact hm
      · cases he
    | some n =>
      simp only [Txn.stepPc]
      split_ifs with hpar
      · refine .inl ⟨hp, G, hS, hK, hn n rfl, fun hgen hname hs => ?_⟩
        have hhost : d.hostOf n = n := Cache.hostOf_of_host hs
        obtain ⟨v, hv, hW, hneg⟩ := (hS.cand hgen n (hn n rfl) hpar hname).state hdV
        exact ⟨v, hv, hW, by rw [hneg, hhost]⟩
      · exact .inl ⟨hp, G, hS, hK, hn n rfl, fun hk => hpar hk.1⟩
  | lkName h n raw =>
    obtain ⟨hp, G, hS, hK, hn, hR⟩ := hL
    by_cases hname : (d.dentry n).iname = h.name
    · have he : (Txn.stepPc .global d (.lkName h n raw) ans).2 = .lkState h n raw n := by
        simp [Txn.stepPc, hname]
      rw [he]
      exact .inl ⟨hp, rfl, G, hS, hn, hR⟩
    · have he : (Txn.stepPc .global d (.lkName h n raw) ans).2 = .lkNext h n := by
        simp [Txn.stepPc, hname]
      rw [he]
      exact .inl ⟨hp, G, hS, hK, hn, fun hk => hname hk.2⟩
  | lkNext _ n =>
    obtain ⟨hp, G, hS, hK, hn, hno⟩ := hL
    refine .inl ⟨hp, G, hS, fun hgen => ?_, fun b hb => hS.meets.closed n hn b hb⟩
    rcases hK hgen with hq | ⟨m, hm, hT⟩
    · exact .inl hq
    · obtain rfl := Option.some.inj hm
      exact .inr (hT.next hd.index hS.meets (fun a ha => hB a (hS.sub ha)) fun hs => hno hs.2)
  | lkState =>
    obtain ⟨hp, rfl, G, hS, hG, hR⟩ := hL
    exact .inl ⟨hp, hS.latch hP hG, fun hgen => hS.state hdV hP hG hR hgen⟩
  | lkGenEnd _ _ _ res =>
    obtain ⟨rfl, -, hq⟩ := hL
    simp only [Txn.stepPc]
    split_ifs with hgen
    · exact .inr ⟨res, _, rfl, hq hgen⟩
    · exact .inl rfl
  | _ => cases hL

theorem GenLookupOk.live (hL : GenLookupOk path V d S pc) : pc.busy = true ∧ pc.reads = true := by
  cases pc <;> first | exact ⟨rfl, rfl⟩ | cases hL

namespace Pc

/-- An entry is instantiated or deleted only where its host is itself in the index, and what a
rename replaces is negative at its commit. -/
def Steady (d : Cache Name) : Pc Name → Prop
  | .setCommit host _ _ _ => d.mark host = false
  | .stkCommit _ _ g _ => ∀ a ∈ g.neg, (d.dentry a).neg = true
  | _ => True

instance (d : Cache Name) (pc : Pc Name) : Decidable (pc.Steady d) := by
  apply pc.casesOn (motive := fun pc => Decidable (pc.Steady d)) <;> intros <;> first
    | exact instDecidableTrue
    | exact instDecidableEqBool _ _
    | exact inferInstanceAs (Decidable (∀ a ∈ _, _))

end Pc

namespace Sys

def Steady (s : Sys Name) : Act Name → Prop
  | .call _ _ => True
  | .step t _ => (s.pc t).Steady s.d

instance (s : Sys Name) (a : Act Name) : Decidable (s.Steady a) :=
  match a with
  | .call _ _ => .isTrue trivial
  | .step t _ => inferInstanceAs (Decidable ((s.pc t).Steady s.d))

end Sys

variable {s s' : Sys Name} {Sets : ℕ → Set ℕ} {a : Act Name} {vs : List (Sys Name)} {t : ℕ}

def Asked (d : Cache Name) : Checked Name → Prop
  | .rename m neg => (d.dentry m.newParent).isdir = true ∧
      ∀ a, neg = some a → (d.dentry a).neg = true
  | .flip host => d.mark host = false
  | .add parent => (d.dentry parent).isdir = true

omit [DecidableEq Name] in
theorem Tended.sound (hO : Tended .global s Sets) : Sound (Asked s.d) s.d :=
  ⟨hO.shape, fun _ h => h, fun _ _ h => h.2⟩

theorem Tended.effect (hO : Tended .global s Sets) (hok : s.Steady a)
    (ha : s.act .global a = some s') :
    ∃ touched back, Effect .global (Asked s.d) s.d touched back s'.d ∧
      ∀ u, (s.pc u).busy = true → Spares touched back (Sets u) ∧
        ∀ T ∈ Sets u, ¬ s.d.linked T → back ≠ some (s.d.hostOf T) := by
  have hV := hO.inv
  obtain ⟨touched, back, hE, hf, hback⟩ := hV.effect_of_act (C := Asked s.d) ha (by
    rintro t ans rfl c hc
    have hst : (s.pc t).Steady s.d := hok
    have hin := hO.into t
    generalize s.pc t = pc at hc hst hin
    cases hc with
    | rename => exact ⟨hin _ rfl, fun a ha => hst a ha⟩
    | flip => exact hst
    | add => exact hin _ rfl)
  refine ⟨touched, back, hE, fun u hu => ⟨hf u hu, fun T hT hl he => ?_⟩⟩
  -- the fold of another shell of the entry waits for the thread
  obtain ⟨w, n, hn, hln, hh⟩ := hback _ he
  have hfold := Pc.fold_of_folds hn
  have hnT := hV.eq_of_linked hfold hln hu hT hh.symm
  rw [hnT] at hln
  exact hl hln

def Sys.InPlace (s : Sys Name) (a : Act Name) : Prop :=
  s.IntoDir a ∧ s.Steady a

instance (s : Sys Name) (a : Act Name) : Decidable (s.InPlace a) :=
  inferInstanceAs (Decidable (_ ∧ _))

theorem lookupCall_global (t : ℕ) (path : List Name) : LookupCall .global Sys.InPlace t path
    (Tended .global) (fun V d S pc => SameBucket d S ∧ GenLookupOk path V d S pc)
    (fun V hosts res => ∃ v ∈ V, Answers v path hosts res) := by
  constructor
  case inv => exact fun hO => hO.inv
  case act => exact fun hO hok ha => hO.act hok.1 ha
  case start => exact fun hO _ => ⟨fun a ha b hb => hO.inv.index.bucket_next ha hb, rfl⟩
  case live => exact fun hL => hL.2.live
  case effect =>
    intro s S a s' V hO hok ha hb hd ⟨hB, hL⟩
    have hM := (hO.inv.seen t hb).toMeets
    obtain ⟨touched, back, hE, hsp⟩ := hO.effect hok.2 ha
    obtain ⟨hf, hback⟩ := hsp t hb
    have hO' := hO.act hok.1 ha
    exact ⟨hB.step hM hO'.inv.index (hE.indexStep hO.inv.index) hf,
      hL.effect hE hO.sound hO'.sound.toShape hM hB hf hback hd⟩
  case step =>
    intro s S V ans hO hb hd ⟨hB, hL⟩
    have hM := (hO.inv.seen t hb).toMeets
    exact (hL.stepPc hd hO.sound.toShape hM hB (hO.inv.pcOk t)).imp (fun h => ⟨hB, h⟩) id

/-- The answer of every lookup is right at one instant of its call, in every run that
instantiates and deletes entries only where their hosts are in the index, and whose renames
replace what is negative at their commit. -/
theorem gen_lookup_right_at_instant {bucketOf : ℕ → Name → ℕ} {rootname : Name}
    {s₀ s₁ : Sys Name} {res : DcResult} {hosts : List ℕ}
    (hr : Reach (Sys.act .global) Sys.InPlace (Sys.init bucketOf rootname) s₀)
    (hcall : s₀.act .global (.call t (.op (.lookup path))) = some s₁)
    (htrail : Trail (Sys.act .global) Sys.InPlace s₁ vs s)
    (hbusy : ∀ v ∈ vs.tail, (v.pc t).busy = true) (hdone : s.pc t = .done (.lookup res hosts)) :
    ∃ v ∈ vs, Answers v.d path hosts res := by
  obtain ⟨S₀, hO⟩ : ∃ S, Tended .global s₀ S :=
    hr.invariant (P := fun s => ∃ S, Tended .global s S) ⟨_, .init .global bucketOf rootname⟩
      fun _ _ _ ⟨_, hO⟩ hok ha => ⟨_, hO.act hok.1 ha⟩
  obtain ⟨d, ⟨v, hv, rfl⟩, hA⟩ :=
    (lookupCall_global t path).returns hO ⟨trivial, trivial⟩ hcall htrail hbusy hdone
  exact ⟨v, hv, hA⟩

/-- Thread 0 renames `/1` to `/3` while thread 2 looks `/1` up. -/
theorem gen_lookup_right_at_instant_rename : ∃ s₀ s₁ s vs,
    Reach (Sys.act .global) Sys.InPlace (Sys.init (fun _ _ => 0) 0) s₀ ∧
      s₀.act .global (.call 2 (.op (.lookup [1]))) = some s₁ ∧
      Trail (Sys.act .global) Sys.InPlace s₁ vs s ∧
      s.pc 2 = .done (.lookup .positive [1]) ∧ ∃ v ∈ vs, Answers v.d [1] [1] .positive := by
  have he : ((exec (guarded (Sys.act .global) Sys.InPlace) (Sys.init (fun _ _ => 0) 0)
      (Act.op 1 (.addFile [1] 0) 6 ++ Act.op 0 (.rename [1] [3]) 11)).bind fun s₀ =>
        (s₀.act .global (.call 2 (.op (.lookup [1])))).bind fun s₁ =>
          (trail (guarded (Sys.act .global) Sys.InPlace) [s₁] s₁
            (Act.steps 2 2 ++ Act.steps 0 2 ++ Act.steps 2 5)).map fun vs =>
              (vs.head?.map (·.pc 2), vs.tail.all fun v => (v.pc 2).busy)) =
      some (some (.done (.lookup .positive [1])), true) := by
    rfl
  obtain ⟨s₀, s₁, s, vs, hr, hcall, htrail, hdone, hbusy⟩ := reach_call_trail he
  exact ⟨s₀, s₁, s, vs, hr, hcall, htrail, hdone,
    gen_lookup_right_at_instant hr hcall htrail (all_eq_true.mp hbusy) hdone⟩

/-- A lookup of the negative `/1` has come to its dentry. The entry moves to `/2`, where it is
instantiated in place, and no generation tells: the answer is positive, and `/1` is positive in
no state of the call. -/
theorem gen_lookup_takes_later_state : ∃ s₀ s₁ s vs,
    Reach (Sys.act .global) Sys.IntoDir (Sys.init (fun _ _ => 0) 0) s₀ ∧
      s₀.act .global (.call 2 (.op (.lookup [1]))) = some s₁ ∧
      Trail (Sys.act .global) Sys.IntoDir s₁ vs s ∧
      s.pc 2 = .done (.lookup .positive [1]) ∧ ∀ v ∈ vs, ¬ Answers v.d [1] [1] .positive := by
  have he : ((exec (guarded (Sys.act .global) Sys.IntoDir) (Sys.init (fun _ _ => 0) 0)
      (Act.op 1 (.addNegative [1]) 6)).bind fun s₀ =>
        (s₀.act .global (.call 2 (.op (.lookup [1])))).bind fun s₁ =>
          (trail (guarded (Sys.act .global) Sys.IntoDir) [s₁] s₁
            (Act.steps 2 2 ++ Act.op 0 (.rename [1] [2]) 13 ++ Act.op 1 (.instantiate [2] 7) 5 ++
              Act.steps 2 5)).map fun vs =>
                (vs.head?.map (·.pc 2), vs.all fun v => !decide (Answers v.d [1] [1] .positive))) =
      some (some (.done (.lookup .positive [1])), true) := by
    decide +kernel
  obtain ⟨s₀, s₁, s, vs, hr, hcall, htrail, hdone, hall⟩ := reach_call_trail he
  exact ⟨s₀, s₁, s, vs, hr, hcall, htrail, hdone, by simpa using hall⟩

end TrieBenchmark.Txn
