import TrieBenchmark.Listing
import TrieBenchmark.Txn.SoloMove

/-!
A lookup that runs alone, and the sequential specification of every operation of the mark arm.
-/

namespace TrieBenchmark.Txn

open List Edits Namei Serial

variable {Name : Type} [DecidableEq Name] {d d' : Cache Name}

section Lookup

variable {arm : Arm} {h : Hop Name} {pre xs : List ℕ} {b : ℕ} {pc pc' pc₁ : Pc Name}

inductive Looks (arm : Arm) (d : Cache Name) : Pc Name → Pc Name → Prop where
  | refl (pc : Pc Name) : Looks arm d pc pc
  | head {pc pc₁ pc' : Pc Name} : pc.busy = true ∧ pc.queues = none →
      stepPc arm d pc .ok = (d, pc₁) → Looks arm d pc₁ pc' → Looks arm d pc pc'

theorem Looks.single (hb : pc.busy = true ∧ pc.queues = none)
    (he : stepPc arm d pc .ok = (d, pc₁)) : Looks arm d pc pc₁ :=
  .head hb he (.refl pc₁)

theorem Looks.trans (h₁ : Looks arm d pc pc₁) (h₂ : Looks arm d pc₁ pc') : Looks arm d pc pc' := by
  induction h₁ with
  | refl => exact h₂
  | head hb he _ ih => exact .head hb he (ih h₂)

theorem Looks.runs (hl : Looks .mark d pc pc') : Runs d pc [] d pc' := by
  induction hl with
  | refl pc => exact .refl d pc
  | head hb he _ ih => exact .head hb he ih

theorem IndexOk.looks_pass (hI : IndexOk d) {x : ℕ} (hl : d.hash b = pre ++ x :: xs)
    (hx : d.spells h.cur h.name x = false) :
    Looks arm d (.lkScan h (some x)) (.lkScan h xs.head?) := by
  have hmem : x ∈ d.hash b := by simp [hl]
  have hnext : d.next x = xs.head? := by
    have hnd := hI.nodup b
    rw [hl] at hnd
    rw [Cache.next_of_linked (hI.linked_of_mem hmem), hI.home b x hmem, hl, succ_append hnd]
  have hgo : Looks arm d (.lkNext h x) (.lkScan h xs.head?) :=
    .single ⟨rfl, rfl⟩ (by simp [stepPc, hnext])
  by_cases hp : (d.dentry x).iparent = h.cur
  · have hn : (d.dentry x).iname ≠ h.name := by
      intro he
      rw [spells_iff.mpr ⟨hp, he⟩] at hx
      cases hx
    have hname : Looks arm d (.lkScan h (some x)) (.lkName h x (d.raw x)) :=
      .single ⟨rfl, rfl⟩ (by simp [stepPc, Cache.raw, hp])
    have hskip : Looks arm d (.lkName h x (d.raw x)) (.lkNext h x) :=
      .single ⟨rfl, rfl⟩ (by simp [stepPc, hn])
    exact hname.trans (hskip.trans hgo)
  · have hskip : Looks arm d (.lkScan h (some x)) (.lkNext h x) :=
      .single ⟨rfl, rfl⟩ (by simp [stepPc, Cache.raw, hp])
    exact hskip.trans hgo

omit [DecidableEq Name] in
theorem IndexOk.restamped (hI : IndexOk d) {top : ℕ} (ht : d.linked top) :
    d.restamped arm (d.stampOf arm top) (d.hostOf top) = false := by
  cases arm with
  | mark | global => exact hI.not_mark ht
  | node => simp [Cache.stampOf]

/-- The chain walk of one hop stops at the first entry spelled so. The mark arm looks at its mark,
the per-node arm also samples the generation of its host. -/
theorem IndexOk.looks_scan_some (hI : IndexOk d) {top : ℕ} (hl : d.hash b = pre ++ xs)
    (hf : xs.find? (d.spells h.cur h.name) = some top) :
    Looks arm d (.lkScan h xs.head?) (.lkState h top (d.raw top) (d.stampOf arm top)) := by
  induction xs generalizing pre with
  | nil => cases hf
  | cons x xs ih =>
    cases hx : d.spells h.cur h.name x with
    | true =>
      rw [find?_cons_of_pos hx] at hf
      obtain rfl := Option.some.inj hf
      obtain ⟨hp, hn⟩ := spells_iff.mp hx
      have hlinked : d.linked x := hI.linked_of_mem (b := b) (by simp [hl])
      have hname : Looks arm d (.lkScan h (some x)) (.lkName h x (d.raw x)) :=
        .single ⟨rfl, rfl⟩ (by simp [stepPc, Cache.raw, hp])
      refine hname.trans ?_
      cases arm with
      | mark =>
        have hconfirm : Looks .mark d (.lkName h x (d.raw x)) (.lkConfirm h x (d.raw x) x) :=
          .single ⟨rfl, rfl⟩ (by simp [stepPc, hn])
        exact hconfirm.trans (.single ⟨rfl, rfl⟩ (by
          simp [stepPc, hI.not_mark hlinked, Cache.stampOf]))
      | global => exact .single ⟨rfl, rfl⟩ (by simp [stepPc, hn, Cache.stampOf])
      | node =>
        have hstamp : Looks .node d (.lkName h x (d.raw x)) (.lkStamp h x (d.raw x)) :=
          .single ⟨rfl, rfl⟩ (by simp [stepPc, hn])
        have hconfirm : Looks .node d (.lkStamp h x (d.raw x))
            (.lkConfirm h x (d.raw x) (d.stampOf .node x)) := .single ⟨rfl, rfl⟩ rfl
        exact hstamp.trans (hconfirm.trans (.single ⟨rfl, rfl⟩ (by
          simp [stepPc, hI.not_mark hlinked])))
    | false =>
      rw [find?_cons_of_neg (by simp [hx])] at hf
      have hl' : d.hash b = pre ++ [x] ++ xs := by simp [hl]
      exact (hI.looks_pass hl hx).trans (ih hl' hf)

theorem IndexOk.looks_scan_none (hI : IndexOk d) (hl : d.hash b = pre ++ xs)
    (hf : xs.find? (d.spells h.cur h.name) = none) :
    Looks arm d (.lkScan h xs.head?) (.lkScan h none) := by
  induction xs generalizing pre with
  | nil => exact .refl _
  | cons x xs ih =>
    cases hx : d.spells h.cur h.name x with
    | true => simp [hx] at hf
    | false =>
      rw [find?_cons_of_neg (by simp [hx])] at hf
      have hl' : d.hash b = pre ++ [x] ++ xs := by simp [hl]
      exact (hI.looks_pass hl hx).trans (ih hl' hf)

variable {path : List Name} {latched todo : List (ℕ × ℕ)} {res : DcResult} {gen : ℕ}

theorem looks_up (hl : ∀ p ∈ todo, d.restamped arm p.1 p.2 = false) :
    Looks arm d (.lkUp path latched todo res) (.done (.lookup res (latched.map Prod.snd))) := by
  induction todo with
  | nil => exact .single ⟨rfl, rfl⟩ rfl
  | cons p todo ih =>
    have hp := hl p (by simp)
    have hstep : Looks arm d (.lkUp path latched (p :: todo) res) (.lkUp path latched todo res) :=
      .single ⟨rfl, rfl⟩ (by simp [stepPc, hp])
    exact hstep.trans (ih fun q hq => hl q (by simp [hq]))

theorem looks_end (hgen : arm = .global → d.gen = gen)
    (hl : ∀ p ∈ latched, d.restamped arm p.1 p.2 = false) :
    Looks arm d (if arm = .global then .lkGenEnd path gen latched res
      else .lkUp path latched latched res) (.done (.lookup res (latched.map Prod.snd))) := by
  cases arm with
  | mark | node => exact looks_up hl
  | global => exact .single ⟨rfl, rfl⟩ (by simp [stepPc, hgen rfl])

def Cache.neg (d : Cache Name) (h : ℕ) : Bool :=
  (d.dentry h).neg

theorem IndexOk.looks_from (hI : IndexOk d) (hgen : arm = .global → d.gen = gen)
    (path : List Name) {cur : ℕ} (rest : List Name)
    (hl : ∀ p ∈ latched, d.restamped arm p.1 p.2 = false) :
    Looks arm d (.lkHop path gen cur rest latched res)
      (.done (.lookup (answer d.childLookup d.neg cur rest res)
        (latched.map Prod.snd ++ through d.childLookup cur rest))) := by
  induction rest generalizing cur latched res with
  | nil =>
    have hstep : Looks arm d (.lkHop path gen cur [] latched res) (if arm = .global then
        .lkGenEnd path gen latched res else .lkUp path latched latched res) :=
      .single ⟨rfl, rfl⟩ rfl
    simpa [answer, through] using hstep.trans (looks_end hgen hl)
  | cons n rest ih =>
    have hscan : Looks arm d (.lkHop path gen cur (n :: rest) latched res)
        (.lkScan ⟨path, gen, cur, n, rest, latched⟩ (d.hash (d.bucketOf cur n)).head?) :=
      .single ⟨rfl, rfl⟩ rfl
    have hnil : d.hash (d.bucketOf cur n) = [] ++ d.hash (d.bucketOf cur n) := rfl
    cases hf : d.findTop cur n with
    | none =>
      have hnone : d.childLookup cur n = none := by simp [Cache.childLookup, hf]
      have hmiss := hscan.trans (hI.looks_scan_none hnil hf)
      have habs : answer d.childLookup d.neg cur (n :: rest) res = .absent := by
        simp [answer, Namei.resolve, hnone]
      have hout : Looks arm d (.lkScan ⟨path, gen, cur, n, rest, latched⟩ none)
          (if arm = .global then .lkGenEnd path gen latched .absent
            else .lkUp path latched latched .absent) := .single ⟨rfl, rfl⟩ rfl
      rw [through_cons_none rest hnone, append_nil, habs]
      exact hmiss.trans (hout.trans (looks_end hgen hl))
    | some top =>
      have hsome : d.childLookup cur n = some (d.hostOf top) := by
        simp [Cache.childLookup, hf]
      obtain ⟨hlt, -, -⟩ := hI.findTop_eq_some.mp hf
      have hfound : Looks arm d (.lkScan ⟨path, gen, cur, n, rest, latched⟩
          (d.hash (d.bucketOf cur n)).head?)
          (.lkState ⟨path, gen, cur, n, rest, latched⟩ top (d.raw top) (d.stampOf arm top)) :=
        hI.looks_scan_some hnil hf
      have hstate : (if (d.raw top).shell then (d.raw (d.hostOf top)).neg
          else (d.raw top).neg) = d.neg (d.hostOf top) := by
        cases hs : (d.dentry top).shell with
        | true => simp [Cache.raw, hs, Cache.neg]
        | false => simp [Cache.raw, hs, Cache.neg, Cache.hostOf_of_host hs]
      have hhop : Looks arm d
          (.lkState ⟨path, gen, cur, n, rest, latched⟩ top (d.raw top) (d.stampOf arm top))
          (.lkHop path gen (d.hostOf top) rest (latched ++ [(d.stampOf arm top, d.hostOf top)])
            (if d.neg (d.hostOf top) then .negative else .positive)) :=
        .single ⟨rfl, rfl⟩ (by simp only [stepPc, hstate])
      have hlatch : ∀ p ∈ latched ++ [(d.stampOf arm top, d.hostOf top)],
          d.restamped arm p.1 p.2 = false := by
        intro p hp
        rcases mem_append.mp hp with hp | hp
        · exact hl p hp
        · rw [mem_singleton.mp hp]
          exact hI.restamped hlt
      have hrest := hhop.trans (ih hlatch)
      rw [map_append, append_assoc] at hrest
      rw [answer_cons_some rest res hsome, through_cons_some rest hsome]
      exact hscan.trans (hfound.trans hrest)

theorem IndexOk.looks_up_path (hI : IndexOk d) (arm : Arm) (path : List Name) :
    Looks arm d (opStart arm (.lookup path)) (.done (.lookup
      (answer d.childLookup d.neg root path .positive) (through d.childLookup root path))) := by
  have hrun : ∀ gen, (arm = .global → d.gen = gen) →
      Looks arm d (.lkHop path gen root path [] .positive) (.done (.lookup
        (answer d.childLookup d.neg root path .positive)
        (map Prod.snd [] ++ through d.childLookup root path))) :=
    fun gen hgen => hI.looks_from hgen path path (by simp)
  cases arm with
  | mark | node => exact hrun 0 nofun
  | global =>
    have hgen : Looks .global d (.lkGen path) (.lkHop path d.gen root path [] .positive) :=
      .single ⟨rfl, rfl⟩ rfl
    exact hgen.trans (hrun d.gen fun _ => rfl)

theorem Quiet.lookup (hQ : Quiet d) (path : List Name) :
    Served d (opStart .mark (.lookup path)) (.lookup (d.names.lookup path).1
      (d.names.lookup path).2) d.names 0 [] d := by
  have hlook : d.names.lookup path =
      (answer d.childLookup d.neg root path .positive, through d.childLookup root path) :=
    pathMap_lookup path (fun _ => rfl) fun _ => rfl
  rw [hlook]
  exact .unchanged hQ (hQ.index.looks_up_path .mark path).runs

end Lookup

/-- What an operation of this engine returns: a rename judges its destination before it looks for
a loop. Memory is there. -/
noncomputable def served (fresh : ℕ) (N : PathMap Name) : Op Name → Ret × PathMap Name
  | .rename src dst =>
    let r := N.renameJudged src dst
    (.code r.1, r.2)
  | o => serve fresh ⟨false, false⟩ N o

theorem Quiet.serve (hQ : Quiet d) {o : Op Name} (hfit : o.Fits) :
    ∃ qs d', Served d (opStart .mark o) (served d.fresh d.names o).1 (served d.fresh d.names o).2
      (spent d.fresh ⟨false, false⟩ d.names o) qs d' := by
  have hmax : ∀ p ∈ o.paths, p.length ≤ loopMax := fun p hp => (hfit p hp).trans (by decide)
  cases o with
  | addTyped path id isdir positive =>
    obtain ⟨d', hd'⟩ := hQ.addTyped ⟨false, false⟩ rfl path id isdir positive
    refine ⟨[], d', hd'.runs, hd'.names, hd'.fit, hd'.flags, hd'.fresh.trans ?_, hd'.shells,
      hd'.queued⟩
    simp only [spent]
  | instantiate path id =>
    obtain ⟨d', hd'⟩ := hQ.instantiate path id
    exact ⟨[], d', hd'⟩
  | delete path =>
    obtain ⟨d', hd'⟩ := hQ.delete path
    exact ⟨[], d', hd'⟩
  | unlink path =>
    obtain ⟨d', hd'⟩ := hQ.unlink path
    exact ⟨[], d', hd'⟩
  | rename src dst =>
    obtain ⟨qs, d', hd'⟩ : ∃ qs d', Served d (opStart .mark (.rename src dst)) _ _ _ qs d' :=
      hQ.rename (hmax dst (by simp [Op.paths]))
    refine ⟨qs, d', hd'.runs, hd'.names, hd'.fit, hd'.flags, hd'.fresh.trans ?_, hd'.shells,
      hd'.queued⟩
    -- the code of a clash is an error in either order
    obtain ⟨hclash, hsame⟩ := d.names.renameJudged_eq src dst
    by_cases hC : d.names.Clash src dst
    · simp [spent, (hclash hC).1, (hclash hC).2]
    · simp only [spent, hsame hC]
  | exchange a b =>
    obtain ⟨qs, d', hd'⟩ := hQ.exchange (hmax a (by simp [Op.paths])) (hmax b (by simp [Op.paths]))
    refine ⟨qs, d', hd'.runs, hd'.names, hd'.fit, hd'.flags, hd'.fresh.trans ?_, hd'.shells,
      hd'.queued⟩
    simp only [spent]
    congr
  | lookup path => exact ⟨[], d, hQ.lookup path⟩

/-! Listing a directory and the whole tree. -/

def Cache.tree (d : Cache Name) : Serial.Tree Name where
  child := d.childLookup
  kids h := (d.kids h).map fun top => (d.hostOf top, (d.dentry top).iname)
  parent h := (d.dentry h).parent
  obj := d.obj

def Cache.dcReaddir (d : Cache Name) (path : List Name) : Option (List (ℕ × Name)) :=
  d.tree.readdir root path

def Cache.dcWalk (d : Cache Name) : List (ℕ × List Name) :=
  d.tree.walk root

theorem IndexOk.listed (hI : IndexOk d) : d.tree.Listed := by
  intro h c n
  rw [show d.tree.child h n = d.childLookup h n from rfl, childLookup_eq_some hI]
  simp only [Cache.tree, mem_map, hI.kids, Prod.mk.injEq]
  constructor
  · rintro ⟨top, ⟨hl, hp⟩, hc, hn⟩
    exact ⟨top, hl, hp, hn, hc⟩
  · rintro ⟨top, hl, hp, hn, hc⟩
    exact ⟨top, ⟨hl, hp⟩, hc, hn⟩

end TrieBenchmark.Txn
